import Mathlib.Data.List.Chain
import Tupai.Cmos

namespace Tupai
set_option autoImplicit true

/-- A date and time that two digits of the year tell. -/
structure Moment where
  year : Nat
  month : Nat
  day : Nat
  hour : Nat
  min : Nat
  sec : Nat
  hyear : 2017 ≤ year ∧ year ≤ 2116
  hmonth : 1 ≤ month ∧ month ≤ 12
  hday : 1 ≤ day ∧ day ≤ 31
  hhour : hour < 24
  hmin : min < 60
  hsec : sec < 60

def Moment.datetime (m : Moment) : Datetime where
  year := BitVec.ofNat 16 m.year
  month := BitVec.ofNat 8 m.month
  day := BitVec.ofNat 8 m.day
  hour := BitVec.ofNat 8 m.hour
  min := BitVec.ofNat 8 m.min
  sec := BitVec.ofNat 8 m.sec

structure Registers where
  sec : Byte
  min : Byte
  hour : Byte
  day : Byte
  month : Byte
  year : Byte
deriving DecidableEq

/-- A number in binary or BCD, as register B selects. -/
def encodeByte (regb : Byte) (n : Nat) : Byte :=
  if regb &&& 0x04#8 = 0#8 then BitVec.ofNat 8 (n / 10 * 16 + n % 10) else BitVec.ofNat 8 n

/-- The hours of a 12-hour clock are 1 to 12, with the PM bit for those after noon. -/
def encodeHour (regb : Byte) (hour : Nat) : Byte :=
  if regb &&& 0x02#8 = 0#8 then
    encodeByte regb ((hour + 11) % 12 + 1) ||| (if 12 ≤ hour then 0x80#8 else 0#8)
  else encodeByte regb hour

def Moment.registers (regb : Byte) (m : Moment) : Registers where
  sec := encodeByte regb m.sec
  min := encodeByte regb m.min
  hour := encodeHour regb m.hour
  day := encodeByte regb m.day
  month := encodeByte regb m.month
  year := encodeByte regb (m.year % 100)

/-- The update flag of register A. -/
def Rtc.Updating (rtc : Rtc) (n : Nat) : Prop := rtc n 0x0A#8 &&& 0x80#8 > 0#8

instance (rtc : Rtc) (n : Nat) : Decidable (rtc.Updating n) :=
  inferInstanceAs (Decidable (rtc n 0x0A#8 &&& 0x80#8 > 0#8))

/-- Six reads, from the `n`-th one on, show these registers. -/
structure Rtc.Shows (rtc : Rtc) (n : Nat) (r : Registers) : Prop where
  sec : rtc n 0x00#8 = r.sec
  min : rtc (n + 1) 0x02#8 = r.min
  hour : rtc (n + 2) 0x04#8 = r.hour
  day : rtc (n + 3) 0x07#8 = r.day
  month : rtc (n + 4) 0x08#8 = r.month
  year : rtc (n + 5) 0x09#8 = r.year

/-- From the `n`-th read on, the update flag is set `k` times before it is clear. -/
def Rtc.Clears (rtc : Rtc) (n k : Nat) : Prop :=
  (∀ j < k, rtc.Updating (n + j)) ∧ ¬ rtc.Updating (n + k)

/-- From the `n`-th read on, the chip presents snapshots, and then keeps showing one encoding. Its
update flag does not stay set. -/
def Rtc.Presents (rtc : Rtc) (e : Registers) : (n : Nat) → (snaps : List Registers) → Prop
  | n, [] => ∀ m ≥ n, rtc.Shows m e ∧ ∃ k, rtc.Clears m k
  | n, r :: snaps =>
    ∃ k, rtc.Clears n k ∧ rtc.Shows (n + k + 1) r ∧ rtc.Presents e (n + k + 7) snaps

/-- How many rounds it takes until the encoding was read twice. -/
def cmosRounds (e : Registers) : (last : Option Registers) → (snaps : List Registers) → Nat
  | last, [] => if last = some e then 1 else 2
  | _, r :: snaps => cmosRounds e (some r) snaps + 1

def Registers.raw (r : Registers) : Datetime :=
  ⟨r.year.zeroExtend 16, r.month, r.day, r.hour, r.min, r.sec⟩

theorem zeroExtend_year {x y : Byte} : x.zeroExtend 16 = y.zeroExtend 16 ↔ x = y := by
  constructor
  · intro h
    have he := congrArg (BitVec.setWidth 8) h
    rwa [BitVec.setWidth_setWidth_of_le _ (by decide), BitVec.setWidth_setWidth_of_le _ (by decide),
      BitVec.setWidth_eq, BitVec.setWidth_eq] at he
  · exact congrArg _

theorem Registers.raw_inj {r r' : Registers} : r.raw = r'.raw ↔ r = r' := by
  obtain ⟨sec, min, hour, day, month, year⟩ := r
  obtain ⟨sec', min', hour', day', month', year'⟩ := r'
  simp only [raw, Datetime.mk.injEq, mk.injEq, zeroExtend_year]
  tauto

variable {rtc : Rtc} {s : Cmos} {e r : Registers}

theorem cmosGetReg_eq (rtc : Rtc) (reg : Byte) (s : Cmos) :
    cmosGetReg rtc reg s = (rtc s.reads reg, ⟨reg, s.reads + 1⟩) := rfl

theorem cmosUpdating_eq (rtc : Rtc) (s : Cmos) :
    cmosUpdating rtc s = (decide (rtc.Updating s.reads), ⟨0x0A#8, s.reads + 1⟩) := rfl

theorem cmosReadRegs_shows (h : rtc.Shows s.reads r) (cent : Byte) :
    cmosReadRegs rtc cent s = (r.raw, cent, ⟨0x09#8, s.reads + 6⟩) := by
  simp only [cmosReadRegs, cmosGetReg_eq, h.sec, h.min, h.hour, h.day, h.month, h.year]
  rfl

theorem cmosWait_clears (h : rtc.Clears s.reads k) (hfuel : k < fuel) :
    cmosWait rtc fuel s = some ⟨0x0A#8, s.reads + k + 1⟩ := by
  induction k generalizing s fuel with
  | zero =>
    obtain ⟨fuel, rfl⟩ := Nat.exists_eq_succ_of_ne_zero (Nat.ne_zero_of_lt hfuel)
    rw [cmosWait, cmosUpdating_eq]
    exact if_neg fun hset => h.2 (of_decide_eq_true hset)
  | succ k ih =>
    obtain ⟨fuel, rfl⟩ := Nat.exists_eq_succ_of_ne_zero (Nat.ne_zero_of_lt hfuel)
    have hset : rtc.Updating s.reads := h.1 0 (Nat.succ_pos k)
    have hnext (j : Nat) : s.reads + 1 + j = s.reads + (j + 1) := by omega
    have hrest : rtc.Clears (s.reads + 1) k := by
      refine ⟨fun j hj => ?_, ?_⟩
      · rw [hnext]
        exact h.1 (j + 1) (Nat.succ_lt_succ hj)
      · rw [hnext]
        exact h.2
    have hwait := ih (s := ⟨0x0A#8, s.reads + 1⟩) hrest (Nat.lt_of_succ_lt_succ hfuel)
    rw [cmosWait, cmosUpdating_eq]
    refine (if_pos (decide_eq_true hset)).trans ?_
    rw [hwait, hnext]

theorem cmosLoop_round (hclear : rtc.Clears s.reads k) (hshow : rtc.Shows (s.reads + k + 1) r)
    (hfuel : k < fuel) (i : Nat) (lTime : Datetime) :
    cmosLoop rtc 0#8 (fuel + 1) i lTime 0#8 s =
      if i ≥ intMax then none
      else if i = 0 ∨ r.raw ≠ lTime then
        cmosLoop rtc 0#8 fuel (i + 1) r.raw 0#8 ⟨0x09#8, s.reads + k + 7⟩
      else some (r.raw, 0#8, ⟨0x09#8, s.reads + k + 7⟩) := by
  have hagain : i + 1 ≤ 1 ∨ r.raw ≠ lTime ∨ (0#8 : Byte) ≠ 0#8 ↔ i = 0 ∨ r.raw ≠ lTime := by
    rw [ne_self_iff_false, or_false, Nat.succ_le_succ_iff, Nat.le_zero]
  rw [cmosLoop, cmosWait_clears hclear hfuel]
  dsimp only
  rw [cmosReadRegs_shows (s := ⟨0x0A#8, s.reads + k + 1⟩) hshow, ← if_congr hagain rfl rfl]

/-- What was read last when `i` rounds are over. -/
def LastRead (i : Nat) (lTime : Datetime) : (last : Option Registers) → Prop
  | none => i = 0
  | some r => 0 < i ∧ lTime = r.raw

theorem LastRead.again (h : LastRead i lTime last) (hne : last ≠ some r) :
    i = 0 ∨ r.raw ≠ lTime := by
  cases last with
  | none => exact .inl h
  | some r' =>
    right
    rw [h.2, Ne, Registers.raw_inj]
    exact fun he => hne (congrArg some he.symm)

theorem LastRead.round (i : Nat) (r : Registers) : LastRead (i + 1) r.raw (some r) :=
  ⟨Nat.succ_pos i, rfl⟩

/-- From here on, the loop ends with these registers, unless `i` overflows in the rounds left. -/
def LoopEnds (rtc : Rtc) (i : Nat) (lTime : Datetime) (s : Cmos) (e : Registers) (left : Nat) :
    Prop :=
  ∃ bound s', ∀ fuel ≥ bound, cmosLoop rtc 0#8 fuel i lTime 0#8 s =
    if i + left ≤ intMax then some (e.raw, 0#8, s') else none

theorem LoopEnds.round (h : LoopEnds rtc (i + 1) r.raw ⟨0x09#8, s.reads + k + 7⟩ e left)
    (hclear : rtc.Clears s.reads k) (hshow : rtc.Shows (s.reads + k + 1) r)
    (hagain : i = 0 ∨ r.raw ≠ lTime) : LoopEnds rtc i lTime s e (left + 1) := by
  obtain ⟨bound, s', h⟩ := h
  refine ⟨max bound (k + 1) + 1, s', fun fuel hfuel => ?_⟩
  obtain ⟨fuel, rfl⟩ := Nat.exists_eq_succ_of_ne_zero (Nat.ne_zero_of_lt hfuel)
  rw [cmosLoop_round hclear hshow (by omega), if_pos hagain, h fuel (by omega)]
  rw [Nat.add_right_comm i 1, Nat.add_assoc]
  split_ifs with hmax hle
  · omega
  · rfl
  · rfl
  · rfl

theorem LoopEnds.stable (hpres : rtc.Presents e s.reads []) (hi : 0 < i) :
    LoopEnds rtc i e.raw s e 1 := by
  obtain ⟨-, k, hclear⟩ := hpres s.reads (Nat.le_refl _)
  obtain ⟨hshow, -⟩ := hpres (s.reads + k + 1) (by omega)
  refine ⟨k + 2, ⟨0x09#8, s.reads + k + 7⟩, fun fuel hfuel => ?_⟩
  obtain ⟨fuel, rfl⟩ := Nat.exists_eq_succ_of_ne_zero (Nat.ne_zero_of_lt hfuel)
  have hstop : ¬ (i = 0 ∨ e.raw ≠ e.raw) := by
    rw [ne_self_iff_false, or_false]
    exact Nat.ne_of_gt hi
  rw [cmosLoop_round hclear hshow (by omega), if_neg hstop]
  split_ifs with hlast hle
  · omega
  · rfl
  · rfl
  · omega

/-- The loop goes on for as long as no snapshot was read twice. -/
theorem LoopEnds.of_presents (hlast : LastRead i lTime prev)
    (hchain : (prev.toList ++ snaps).IsChain (· ≠ ·)) (hpres : rtc.Presents e s.reads snaps) :
    LoopEnds rtc i lTime s e (cmosRounds e prev snaps) := by
  induction snaps generalizing i lTime prev s with
  | nil =>
    rw [cmosRounds]
    split_ifs with he
    · subst he
      rw [hlast.2]
      exact .stable hpres hlast.1
    · obtain ⟨-, k, hclear⟩ := hpres s.reads (Nat.le_refl _)
      obtain ⟨hshow, -⟩ := hpres (s.reads + k + 1) (by omega)
      have hrest : rtc.Presents e (s.reads + k + 7) [] := fun n hn => hpres n (by omega)
      exact (LoopEnds.stable hrest (LastRead.round i e).1).round hclear hshow (hlast.again he)
  | cons r snaps ih =>
    obtain ⟨k, hclear, hshow, hrest⟩ := hpres
    have hne : prev ≠ some r := by
      rintro rfl
      exact (List.isChain_cons_cons.1 hchain).1 rfl
    have hchain' : ((some r).toList ++ snaps).IsChain (· ≠ ·) :=
      (List.isChain_append.1 hchain).2.1
    exact (ih (.round i r) hchain' hrest).round hclear hshow (hlast.again hne)

theorem encodeByte_binary (h : regb &&& 0x04#8 ≠ 0#8) (n : Nat) :
    encodeByte regb n = BitVec.ofNat 8 n := if_neg h

theorem encodeByte_bcd (h : regb &&& 0x04#8 = 0#8) (n : Nat) :
    encodeByte regb n = BitVec.ofNat 8 (n / 10 * 16 + n % 10) := if_pos h

theorem bcdByte_encode : ∀ n < 100, bcdByte (BitVec.ofNat 8 (n / 10 * 16 + n % 10)) =
    BitVec.ofNat 8 n := by decide

theorem bcdYear_encode : ∀ n < 100,
    bcdYear ((BitVec.ofNat 8 (n / 10 * 16 + n % 10)).zeroExtend 16) =
      (BitVec.ofNat 8 n).zeroExtend 16 := by decide

theorem cmosYear_encode : ∀ n < 100,
    cmosYear 0#8 ((BitVec.ofNat 8 ((n + 2017) % 100)).zeroExtend 16) =
      BitVec.ofNat 16 (n + 2017) := by decide

theorem cmosHour_day (h : regb &&& 0x02#8 ≠ 0#8) (hour : Byte) : cmosHour regb hour = hour :=
  if_neg fun he => h he.1

/-- Of a 12-hour clock, noon and midnight are taken for each other. -/
theorem cmosHour_half (h : regb &&& 0x02#8 = 0#8) (hbinary : regb &&& 0x04#8 ≠ 0#8) :
    ∀ hour < 24, cmosHour regb (encodeHour regb hour) = BitVec.ofNat 8 hour ↔
      hour ≠ 0 ∧ hour ≠ 12 := by
  simp only [cmosHour, encodeHour, encodeByte_binary hbinary, h, true_and]
  decide

theorem bcdHour_day (h : regb &&& 0x02#8 ≠ 0#8) (hbcd : regb &&& 0x04#8 = 0#8) :
    ∀ hour < 24, bcdHour (encodeHour regb hour) = BitVec.ofNat 8 hour := by
  simp only [encodeHour, encodeByte_bcd hbcd, if_neg h]
  decide

theorem cmosHour_bcd (h : regb &&& 0x02#8 = 0#8) (hbcd : regb &&& 0x04#8 = 0#8) :
    ∀ hour < 24, cmosHour regb (bcdHour (encodeHour regb hour)) = BitVec.ofNat 8 hour ↔
      hour ≠ 0 ∧ hour ≠ 12 := by
  simp only [cmosHour, encodeHour, encodeByte_bcd hbcd, h, true_and]
  decide

/-- The moment, but with the hour that `cmos_read` makes of the hour register. -/
def Moment.decoded (regb : Byte) (m : Moment) : Datetime :=
  let hour := encodeHour regb m.hour
  { m.datetime with
    hour := cmosHour regb (if regb &&& 0x04#8 = 0#8 then bcdHour hour else hour) }

theorem cmosConvert_registers (regb : Byte) (m : Moment) :
    cmosConvert regb 0#8 (m.registers regb).raw = m.decoded regb := by
  obtain ⟨year, month, day, hour, min, sec, hyear, hmonth, hday, hhour, hmin, hsec⟩ := m
  obtain ⟨n, rfl⟩ := Nat.exists_eq_add_of_le' hyear.1
  have hn := cmosYear_encode n (by omega)
  rw [cmosConvert, cmosBinary]
  split_ifs with hbcd
  · simp only [Registers.raw, Moment.registers, Moment.decoded, Moment.datetime,
      encodeByte_bcd hbcd, if_pos hbcd, bcdByte_encode sec (by omega),
      bcdByte_encode min (by omega), bcdByte_encode day (by omega),
      bcdByte_encode month (by omega), bcdYear_encode _ (Nat.mod_lt _ (by decide : 100 > 0)), hn]
  · simp only [Registers.raw, Moment.registers, Moment.decoded, Moment.datetime,
      encodeByte_binary hbcd, if_neg hbcd, hn]

theorem Moment.decoded_iff (regb : Byte) (m : Moment) :
    m.decoded regb = m.datetime ↔ regb &&& 0x02#8 ≠ 0#8 ∨ m.hour ≠ 0 ∧ m.hour ≠ 12 := by
  have hiff : m.decoded regb = m.datetime ↔
      (m.decoded regb).hour = BitVec.ofNat 8 m.hour := by
    simp only [decoded, datetime, Datetime.mk.injEq, true_and, and_true]
  rw [hiff, decoded]
  dsimp only
  by_cases h : regb &&& 0x02#8 = 0#8
  · rw [or_iff_right (not_not.2 h)]
    split_ifs with hbcd
    · exact cmosHour_bcd h hbcd m.hour m.hhour
    · exact cmosHour_half h hbcd m.hour m.hhour
  · rw [cmosHour_day h]
    refine iff_of_true ?_ (.inl h)
    split_ifs with hbcd
    · exact bcdHour_day h hbcd m.hour m.hhour
    · rw [encodeHour, if_neg h, encodeByte_binary hbcd]

/-- Once the chip keeps to the moment, `cmos_read` returns what it makes of it. -/
theorem cmosRead_ends (m : Moment) (hpres : rtc.Presents (m.registers regb) s.reads snaps)
    (hchain : snaps.IsChain (· ≠ ·)) (hformat : ∀ n, rtc n 0x0B#8 = regb) :
    ∃ bound, ∀ fuel ≥ bound, cmosRead rtc fuel s =
      if cmosRounds (m.registers regb) none snaps < 2 ^ 31 then some (m.decoded regb)
      else none := by
  have hnone : LastRead 0 {} none := rfl
  obtain ⟨bound, s', hends⟩ := LoopEnds.of_presents hnone hchain hpres
  refine ⟨bound, fun fuel hfuel => ?_⟩
  have hmax : 0 + cmosRounds (m.registers regb) none snaps ≤ intMax ↔
      cmosRounds (m.registers regb) none snaps < 2 ^ 31 := by
    rw [intMax]
    omega
  rw [cmosRead, hends fuel hfuel, ← if_congr hmax rfl rfl]
  split_ifs with hle
  · dsimp only
    rw [cmosGetReg_eq, hformat, cmosConvert_registers]
  · rfl

theorem Rtc.Returns.unique {time time' : Datetime} (h : rtc.Returns s time)
    (h' : rtc.Returns s time') : time = time' := by
  obtain ⟨bound, h⟩ := h
  obtain ⟨bound', h'⟩ := h'
  have he := h (max bound bound') (Nat.le_max_left ..)
  rw [h' (max bound bound') (Nat.le_max_right ..)] at he
  exact (Option.some.inj he).symm

/-- The clock is read right, unless it is noon or midnight on a 12-hour clock. -/
theorem cmosRead_iff (m : Moment) {regb : Byte} {snaps : List Registers}
    (hpres : rtc.Presents (m.registers regb) s.reads snaps) (hchain : snaps.IsChain (· ≠ ·))
    (hformat : ∀ n, rtc n 0x0B#8 = regb) :
    rtc.Returns s m.datetime ↔ (regb &&& 0x02#8 ≠ 0#8 ∨ m.hour ≠ 0 ∧ m.hour ≠ 12) ∧
      cmosRounds (m.registers regb) none snaps < 2 ^ 31 := by
  obtain ⟨bound, hends⟩ := cmosRead_ends m hpres hchain hformat
  rw [← Moment.decoded_iff]
  by_cases hlt : cmosRounds (m.registers regb) none snaps < 2 ^ 31
  · rw [and_iff_left hlt]
    have hreturns : rtc.Returns s (m.decoded regb) :=
      ⟨bound, fun fuel hfuel => (hends fuel hfuel).trans (if_pos hlt)⟩
    constructor
    · exact fun h => hreturns.unique h
    · exact fun he => he ▸ hreturns
  · refine iff_of_false ?_ fun h => hlt h.2
    rintro ⟨bound', h⟩
    have hnone := hends (max bound bound') (Nat.le_max_left ..)
    rw [h (max bound bound') (Nat.le_max_right ..), if_neg hlt] at hnone
    exact Option.some_ne_none _ hnone

def stillRtc (regb : Byte) (r : Registers) : Rtc := fun _ reg =>
  if reg = 0x00#8 then r.sec
  else if reg = 0x02#8 then r.min
  else if reg = 0x04#8 then r.hour
  else if reg = 0x07#8 then r.day
  else if reg = 0x08#8 then r.month
  else if reg = 0x09#8 then r.year
  else if reg = 0x0B#8 then regb
  else 0#8

theorem stillRtc_presents (regb : Byte) (r : Registers) (n : Nat) :
    (stillRtc regb r).Presents r n [] := by
  refine fun m _ => ⟨⟨rfl, rfl, rfl, rfl, rfl, rfl⟩, 0, ?_, ?_⟩
  · exact fun j hj => absurd hj (Nat.not_lt_zero j)
  · exact (by decide : ¬ 0#8 &&& 0x80#8 > 0#8)

/-- Noon of the first day that two digits of the year tell. -/
def firstNoon : Moment where
  year := 2017
  month := 1
  day := 1
  hour := 12
  min := 0
  sec := 0
  hyear := by decide
  hmonth := by decide
  hday := by decide
  hhour := by decide
  hmin := by decide
  hsec := by decide

theorem cmosRead_firstNoon :
    (stillRtc 0x02#8 (firstNoon.registers 0x02#8)).Returns ⟨0#8, 0⟩ firstNoon.datetime :=
  (cmosRead_iff firstNoon (stillRtc_presents _ _ 0) .nil fun _ => rfl).2 ⟨by decide, by decide⟩

/-- On a 12-hour clock, noon is read as midnight. -/
theorem not_cmosRead_noon : ¬ ∀ (m : Moment) (rtc : Rtc) (s : Cmos) (regb : Byte)
    (snaps : List Registers), rtc.Presents (m.registers regb) s.reads snaps →
      snaps.IsChain (· ≠ ·) → (∀ n, rtc n 0x0B#8 = regb) → rtc.Returns s m.datetime := by
  intro h
  have hpres := stillRtc_presents 0#8 (firstNoon.registers 0#8) 0
  have hright := h firstNoon _ ⟨0#8, 0⟩ 0#8 [] hpres .nil fun _ => rfl
  obtain ⟨bound, hends⟩ := cmosRead_ends (s := ⟨0#8, 0⟩) firstNoon hpres .nil fun _ => rfl
  have hread : (stillRtc 0#8 (firstNoon.registers 0#8)).Returns ⟨0#8, 0⟩ (firstNoon.decoded 0#8) :=
    ⟨bound, hends⟩
  exact absurd (hread.unique hright) (by decide)

end Tupai
