import Tupai.Rendering

namespace Tupai
set_option autoImplicit true

def signWrites (val : Int) : List Nat := if val < 0 then [0] else []

def baseWrites (base : Int) (strCount : Nat) : List Nat :=
  if base = 2 ∨ base = 8 ∨ base = 16 then [strCount, strCount + 1] else []

def padWrites : (left strCount : Nat) → List Nat
  | 0, _ => []
  | left + 1, strCount => strCount :: padWrites left (strCount + 1)

/-- The loops for the digits subtract from `str_count` as a `size_t` of width `w`. -/
def digitWrites (w strCount : Nat) : (left i : Nat) → List Nat
  | 0, _ => []
  | left + 1, i => wrapSub w (wrapSub w strCount i) 1 :: digitWrites w strCount left (i + 1)

/-- The indices that are written after the size is found, one after the other. -/
def composeWrites (w : Nat) (T : IntType) (val base pad : Int) (digits : Nat) : List Nat :=
  let strCount := (signWrites val).length
  let padAt := strCount + (baseWrites base strCount).length
  let left := (min (T.sizeof * 8 : Int) (max 1 (fullPad T base pad)) - digits).toNat
  let stop := padAt + left + digits
  signWrites val ++ baseWrites base strCount ++ padWrites left padAt ++
    if 2 ≤ base ∧ base ≤ 16 then digitWrites w stop digits 0 ++ [stop] else []

def composeIntegerWrites (w : Nat) (T : IntType) (fuel : Nat) (val : Int) (n : Nat)
    (base pad : Int) : Option (List Nat) :=
  if n < T.sizeof * 8 + 4 then some []
  else if base ≤ 0 then some []
  else (countDigits T base fuel (T.abs val)).map (composeWrites w T val base pad)

/-- The call returns, and writes nothing behind the buffer. -/
structure Fits (w : Nat) (T : IntType) (fuel : Nat) (val : Int) (n : Nat) (base pad : Int)
    (writes : List Nat) : Prop where
  traced : composeIntegerWrites w T fuel val n base pad = some writes
  inside : ∀ i ∈ writes, i < n
  rejected : n < T.width + 4 → writes = []
  extent : ∀ i ∈ writes, i < T.width + 4
  others : ∀ buff, ∃ r, composeInteger T fuel val buff n base pad = some r ∧
    ∀ i ∉ writes, r.2 i = buff i

variable {T : IntType} {buff : Buffer} {val base pad : Int}

theorem Buffer.set_other (buff : Buffer) (c : Byte) (h : j ≠ i) : buff.set i c j = buff j :=
  Function.update_of_ne h ..

theorem writeSign_count (T : IntType) (val : Int) (buff : Buffer) :
    (writeSign T val buff).2.1 = (signWrites val).length := by
  rw [writeSign, signWrites]
  split_ifs <;> rfl

theorem writeSign_other (h : i ∉ signWrites val) : (writeSign T val buff).1 i = buff i := by
  rw [signWrites] at h
  rw [writeSign]
  split_ifs at h ⊢
  · exact buff.set_other _ (List.ne_of_not_mem_cons h)
  · rfl

theorem writeBase_count (base : Int) (buff : Buffer) (strCount : Nat) :
    (writeBase base buff strCount).2 = strCount + (baseWrites base strCount).length := by
  rw [writeBase, baseWrites]
  split_ifs <;> first | rfl | omega

theorem writeBase_other (h : i ∉ baseWrites base strCount) :
    (writeBase base buff strCount).1 i = buff i := by
  have htwo (c d : Byte) (h : i ∉ [strCount, strCount + 1]) :
      ((buff.set strCount c).set (strCount + 1) d) i = buff i := by
    rw [List.mem_cons, List.mem_singleton, not_or] at h
    rw [Buffer.set_other _ _ h.2, Buffer.set_other _ _ h.1]
  rw [baseWrites] at h
  rw [writeBase]
  split_ifs at h ⊢ <;> first | exact htwo _ _ h | rfl | omega

theorem writePad_count (left : Nat) (buff : Buffer) (strCount : Nat) :
    (writePad left buff strCount).2 = strCount + left := by
  induction left generalizing buff strCount with
  | zero => rfl
  | succ left ih =>
    rw [writePad, ih]
    omega

theorem writePad_other (h : i ∉ padWrites left strCount) :
    (writePad left buff strCount).1 i = buff i := by
  induction left generalizing buff strCount with
  | zero => rfl
  | succ left ih =>
    rw [padWrites, List.mem_cons, not_or] at h
    rw [writePad, ih h.2, Buffer.set_other _ _ h.1]

/-- No index of a digit wraps, as there are at most as many digits as `str_count` says. -/
theorem digitWrites_index (hw : strCount < 2 ^ w) (hi : i < strCount) :
    wrapSub w (wrapSub w strCount i) 1 = strCount - i - 1 := by
  rw [wrapSub_of_le (Nat.le_of_lt hi) hw, wrapSub_of_le (by omega) (by omega)]

theorem writeDigits_other (hw : strCount < 2 ^ w) (hend : i + left ≤ strCount)
    (h : j ∉ digitWrites w strCount left i) :
    writeDigits T base strCount left i val buff j = buff j := by
  induction left generalizing i val buff with
  | zero => rfl
  | succ left ih =>
    rw [digitWrites, digitWrites_index hw (by omega), List.mem_cons, not_or] at h
    rw [writeDigits, ih (by omega) h.2, Buffer.set_other _ _ h.1]

theorem padWrites_lt : ∀ i ∈ padWrites left strCount, i < strCount + left := by
  induction left generalizing strCount with
  | zero => exact List.forall_mem_nil _
  | succ left ih =>
    rw [padWrites, List.forall_mem_cons]
    refine ⟨by omega, fun i hi => ?_⟩
    have hlt := ih i hi
    omega

theorem digitWrites_lt (hw : strCount < 2 ^ w) (hend : i + left ≤ strCount) :
    ∀ j ∈ digitWrites w strCount left i, j < strCount := by
  induction left generalizing i with
  | zero => exact List.forall_mem_nil _
  | succ left ih =>
    rw [digitWrites, List.forall_mem_cons, digitWrites_index hw (by omega)]
    exact ⟨by omega, ih (by omega)⟩

theorem signWrites_length (val : Int) : (signWrites val).length ≤ 1 := by
  rw [signWrites]
  split_ifs <;> decide

theorem baseWrites_length (base : Int) (strCount : Nat) :
    (baseWrites base strCount).length ≤ 2 := by
  rw [baseWrites]
  split_ifs
  · exact Nat.le_refl 2
  · exact Nat.zero_le 2

theorem signWrites_lt : ∀ i ∈ signWrites val, i < (signWrites val).length := by
  rw [signWrites]
  split_ifs <;> decide

theorem baseWrites_lt :
    ∀ i ∈ baseWrites base strCount, i < strCount + (baseWrites base strCount).length := by
  rw [baseWrites]
  split_ifs
  · rw [List.forall_mem_cons, List.forall_mem_singleton]
    exact ⟨Nat.lt_add_of_pos_right Nat.two_pos, Nat.lt_succ_self _⟩
  · exact List.forall_mem_nil _

/-- Where the digits end. The padding fills up to the width of the type at most. -/
theorem composeWrites_stop (hd : digits ≤ T.width) (val base pad : Int) :
    (signWrites val).length + (baseWrites base (signWrites val).length).length +
      (min (T.sizeof * 8 : Int) (max 1 (fullPad T base pad)) - digits).toNat + digits ≤
        T.width + 3 := by
  have hsign := signWrites_length val
  have hbase := baseWrites_length base (signWrites val).length
  have hwidth : (T.width : Int) = T.sizeof * 8 := rfl
  omega

theorem composeWrites_lt (hd : digits ≤ T.width) (hw : T.width + 4 < 2 ^ w) (val base pad : Int) :
    ∀ i ∈ composeWrites w T val base pad digits, i < T.width + 4 := by
  have hstop := composeWrites_stop hd val base pad
  rw [composeWrites, List.forall_mem_append, List.forall_mem_append, List.forall_mem_append]
  refine ⟨⟨⟨fun i hi => ?_, fun i hi => ?_⟩, fun i hi => ?_⟩, ?_⟩
  · have hlt := signWrites_lt i hi
    omega
  · have hlt := baseWrites_lt i hi
    omega
  · have hlt := padWrites_lt i hi
    omega
  · split_ifs
    · rw [List.forall_mem_append, List.forall_mem_singleton]
      refine ⟨fun i hi => ?_, by omega⟩
      have hlt := digitWrites_lt (by omega) (by omega) i hi
      omega
    · exact List.forall_mem_nil _

/-- With a sign and all digits of a byte in base 2, the last of the 12 bytes is used. -/
example : 11 ∈ composeWrites 32 .int8_t (-1) 2 (-1) 1 := by decide

theorem composeDigits_other (hd : digits ≤ T.width) (hw : T.width + 4 < 2 ^ w) (buff : Buffer)
    (h : i ∉ composeWrites w T val base pad digits) :
    (composeDigits T val buff base pad digits).2 i = buff i := by
  have hstop := composeWrites_stop hd val base pad
  rw [composeWrites, List.mem_append, List.mem_append, List.mem_append, not_or, not_or,
    not_or] at h
  obtain ⟨⟨⟨hsign, hbase⟩, hpad⟩, hdigits⟩ := h
  rw [composeDigits]
  dsimp only
  rw [writeSign_count, writeBase_count, writePad_count]
  have hunpadded (left : Nat) (h : i ∉ padWrites left ((signWrites val).length +
      (baseWrites base (signWrites val).length).length)) :
      (writePad left (writeBase base (writeSign T val buff).1 (signWrites val).length).1
        ((signWrites val).length + (baseWrites base (signWrites val).length).length)).1 i =
          buff i := by
    rw [writePad_other h, writeBase_other hbase, writeSign_other hsign]
  split_ifs at hdigits ⊢
  · rw [List.mem_append, List.mem_singleton, not_or] at hdigits
    dsimp only
    rw [Buffer.set_other _ _ hdigits.2, writeDigits_other (by omega) (by omega) hdigits.1]
    exact hunpadded _ hpad
  · exact hunpadded _ hpad

theorem digits_length_le {base : Nat} (hb : 2 ≤ base) (hv : T.Holds val) :
    (base.digits (T.abs val).toNat).length ≤ T.width := by
  have hlt := hv.abs.lt
  have hpow : (T.abs val).toNat < 2 ^ T.width := by
    rw [Int.toNat_lt' (by positivity)]
    exact_mod_cast hlt
  rw [Nat.digits_length_le_iff hb]
  exact hpow.trans_le (Nat.pow_le_pow_left hb T.width)

theorem fits_of_count (hroom : T.width + 4 ≤ n) (hn : n < 2 ^ w) (hpos : 0 < base) (pad : Int)
    (hcount : countDigits T base fuel (T.abs val) = some digits) (hd : digits ≤ T.width) :
    Fits w T fuel val n base pad (composeWrites w T val base pad digits) := by
  have hw : T.width + 4 < 2 ^ w := Nat.lt_of_le_of_lt hroom hn
  have hlarge : ¬ n < T.sizeof * 8 + 4 := Nat.not_lt.2 hroom
  have hextent := composeWrites_lt hd hw val base pad
  refine ⟨?_, fun i hi => ?_, fun h => absurd h hlarge, hextent, fun buff => ?_⟩
  · rw [composeIntegerWrites, if_neg hlarge, if_neg (Int.not_le.2 hpos), hcount]
    rfl
  · exact Nat.lt_of_lt_of_le (hextent i hi) hroom
  · refine ⟨composeDigits T val buff base pad digits, ?_, fun i hi => ?_⟩
    · rw [composeInteger, if_neg hlarge, if_neg (Int.not_le.2 hpos), hcount]
      rfl
    · exact composeDigits_other hd hw buff hi

theorem fits_of_small (hsmall : n < T.width + 4) (w fuel : Nat) (val base pad : Int) :
    Fits w T fuel val n base pad [] := by
  have htest : n < T.sizeof * 8 + 4 := hsmall
  refine ⟨if_pos htest, List.forall_mem_nil _, fun _ => rfl, List.forall_mem_nil _, fun buff => ?_⟩
  exact ⟨(false, buff), if_pos htest, fun _ _ => rfl⟩

/-- Nothing is written behind the buffer, whose size is tested before. -/
theorem composeInteger_fits (hv : T.Holds val) (hb : 2 ≤ base) (hn : n < 2 ^ w) (pad : Int) :
    ∃ fuel writes, Fits w T fuel val n base pad writes := by
  rcases Nat.lt_or_ge n (T.width + 4) with hsmall | hroom
  · exact ⟨0, [], fits_of_small hsmall w 0 val base pad⟩
  · obtain ⟨b, rfl⟩ := Int.eq_ofNat_of_zero_le (by omega : 0 ≤ base)
    have hb' : 2 ≤ b := by omega
    exact ⟨_, _, fits_of_count hroom hn (by omega) pad (countDigits_abs hb' hv)
      (digits_length_le hb' hv)⟩

theorem composeInteger_fits_byte :
    ∃ fuel writes, Fits 32 .int8_t fuel (-1) 12 2 (-1) writes :=
  composeInteger_fits (by decide) (by decide) (by decide) (-1)

end Tupai
