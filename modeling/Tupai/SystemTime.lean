import Tupai.Clock
import Tupai.Fmt

namespace Tupai
set_option autoImplicit true

/-- The arguments of `print` in the command `time`. -/
def timeArgs (time : Datetime) : List FmtArg :=
  [.str (chars "The system time is "),
    .int .int16_t time.year.toInt 10 4, .char (chr '-'), .int .uint8_t time.month.toNat 10 2,
    .char (chr '-'), .int .uint8_t time.day.toNat 10 2, .char (chr ' '),
    .int .uint8_t time.hour.toNat 10 2, .char (chr ':'), .int .uint8_t time.min.toNat 10 2,
    .char (chr ':'), .int .uint8_t time.sec.toNat 10 2, .char 0x0A#8]

/-- What the command `time` prints. -/
def timeCommand (rtc : Rtc) (fuel : Nat) (s : Cmos) : Option Chars :=
  (cmosRead rtc fuel s).bind fun time => log (timeArgs time)

/-- With enough fuel, the command prints this. -/
def Rtc.Prints (rtc : Rtc) (s : Cmos) (text : Chars) : Prop :=
  ∃ bound, ∀ fuel ≥ bound, timeCommand rtc fuel s = some text

def twoDigits (n : Nat) : Chars := [digitChar (n / 10), digitChar (n % 10)]

def fourDigits (n : Nat) : Chars := twoDigits (n / 100) ++ twoDigits (n % 100)

/-- The line that tells a moment. -/
def Moment.text (m : Moment) : Chars :=
  chars "The system time is " ++ fourDigits m.year ++ chars "-" ++ twoDigits m.month ++
    chars "-" ++ twoDigits m.day ++ chars " " ++ twoDigits m.hour ++ chars ":" ++
    twoDigits m.min ++ chars ":" ++ twoDigits m.sec ++ chars "\n"

variable {rtc : Rtc} {s : Cmos} {regb : Byte} {snaps : List Registers}

/-- A number that has as many digits as the pad asks for. -/
theorem numeral_pad {L : List Nat} (hlen : leastDigits T 10 pad = L.length)
    (hd : ∀ d ∈ L, d < 10) : numeral T 10 pad (Nat.ofDigits 10 L) = L.reverse.map digitChar := by
  have hinv := (Nat.setInvOn_digitsAppend_ofDigits (b := 10) (by decide) L.length).1 ⟨rfl, hd⟩
  rw [numeral, hlen, hinv]
  rfl

theorem numeral_two (h : n < 100) : numeral .uint8_t 10 2 n = twoDigits n := by
  have hn : Nat.ofDigits 10 [n % 10, n / 10] = n := by
    simp only [Nat.ofDigits_cons, Nat.ofDigits_nil]
    omega
  have hpad : numeral .uint8_t 10 2 (Nat.ofDigits 10 [n % 10, n / 10]) = twoDigits n := by
    apply numeral_pad rfl
    simp only [List.forall_mem_cons]
    exact ⟨by omega, by omega, List.forall_mem_nil _⟩
  rwa [hn] at hpad

theorem numeral_four (h : n < 10000) : numeral .int16_t 10 4 n = fourDigits n := by
  have hn : Nat.ofDigits 10 [n % 100 % 10, n % 100 / 10, n / 100 % 10, n / 100 / 10] = n := by
    simp only [Nat.ofDigits_cons, Nat.ofDigits_nil]
    omega
  have hpad : numeral .int16_t 10 4
      (Nat.ofDigits 10 [n % 100 % 10, n % 100 / 10, n / 100 % 10, n / 100 / 10]) =
        fourDigits n := by
    apply numeral_pad rfl
    simp only [List.forall_mem_cons]
    exact ⟨by omega, by omega, by omega, by omega, List.forall_mem_nil _⟩
  rwa [hn] at hpad

theorem fmt_byte (b : Byte) :
    (FmtArg.int .uint8_t b.toNat 10 2).fmt = some (numeral .uint8_t 10 2 b.toNat) := by
  have hlt := b.isLt
  refine fmtInt_natCast (by decide) (by decide) ?_ 2
  exact ⟨Int.natCast_nonneg _, by exact_mod_cast hlt⟩

theorem fmt_two (h : n < 100) :
    (FmtArg.int .uint8_t (BitVec.ofNat 8 n).toNat 10 2).fmt = some (twoDigits n) := by
  rw [fmt_byte, BitVec.toNat_ofNat, Nat.mod_eq_of_lt (by omega), numeral_two h]

theorem fmt_four (h : n < 10000) :
    (FmtArg.int .int16_t (BitVec.ofNat 16 n).toInt 10 4).fmt = some (fourDigits n) := by
  have hn : (BitVec.ofNat 16 n).toInt = n := by
    rw [BitVec.toInt_eq_toNat_of_lt, BitVec.toNat_ofNat, Nat.mod_eq_of_lt (by omega)]
    rw [BitVec.toNat_ofNat, Nat.mod_eq_of_lt (by omega)]
    omega
  have hholds : IntType.Holds .int16_t n := by
    show -2 ^ 15 ≤ (n : Int) ∧ (n : Int) < 2 ^ 15
    omega
  rw [hn, ← numeral_four h]
  exact fmtInt_natCast (by decide) (by decide) hholds 4

/-- The line is as it should be but for the hour. -/
theorem log_timeArgs (m : Moment) (hour : Byte) :
    log (timeArgs { m.datetime with hour := hour }) =
      some (chars "The system time is " ++ fourDigits m.year ++ chars "-" ++ twoDigits m.month ++
        chars "-" ++ twoDigits m.day ++ chars " " ++ numeral .uint8_t 10 2 hour.toNat ++ chars ":" ++
        twoDigits m.min ++ chars ":" ++ twoDigits m.sec ++ chars "\n") := by
  have hyear := m.hyear
  have hmonth := m.hmonth
  have hday := m.hday
  have hmin := m.hmin
  have hsec := m.hsec
  have hmonth' := fmt_two (n := m.month) (by omega)
  have hday' := fmt_two (n := m.day) (by omega)
  have hmin' := fmt_two (n := m.min) (by omega)
  have hsec' := fmt_two (n := m.sec) (by omega)
  have hyear' := fmt_four (n := m.year) (by omega)
  refine (log_eq (.cons (fmt_str (by decide)) (.cons hyear' (.cons rfl (.cons hmonth' (.cons rfl
    (.cons hday' (.cons rfl (.cons (fmt_byte hour) (.cons rfl (.cons hmin' (.cons rfl
    (.cons hsec' (.cons rfl .nil)))))))))))))).trans ?_
  simp only [List.flatten_cons, List.flatten_nil, List.append_nil, List.append_assoc]
  rfl

theorem log_timeArgs_iff (m : Moment) (hour : Byte) :
    log (timeArgs { m.datetime with hour := hour }) = some m.text ↔
      hour = BitVec.ofNat 8 m.hour := by
  have hhour := m.hhour
  have hnat : (BitVec.ofNat 8 m.hour).toNat = m.hour := by
    rw [BitVec.toNat_ofNat, Nat.mod_eq_of_lt (by omega)]
  rw [log_timeArgs, Option.some_inj, Moment.text, ← numeral_two (n := m.hour) (by omega)]
  constructor
  · intro he
    simp only [List.append_assoc, List.append_cancel_left_eq] at he
    have hnum := numeral_inj (by decide) (by decide) (List.append_cancel_right he)
    rw [BitVec.toNat_eq, hnat, hnum]
  · rintro rfl
    rw [hnat]

/-- From the registers of the chip to the screen: the command `time` tells the moment that the chip
presents, unless it is noon or midnight on a 12-hour clock. -/
theorem time_prints_iff (m : Moment) (hpres : rtc.Presents (m.registers regb) s.reads snaps)
    (hchain : snaps.IsChain (· ≠ ·)) (hformat : ∀ n, rtc n 0x0B#8 = regb) :
    rtc.Prints s m.text ↔ (regb &&& 0x02#8 ≠ 0#8 ∨ m.hour ≠ 0 ∧ m.hour ≠ 12) ∧
      cmosRounds (m.registers regb) none snaps < 2 ^ 31 := by
  obtain ⟨bound, hends⟩ := cmosRead_ends m hpres hchain hformat
  have hcommand : ∀ fuel ≥ bound, timeCommand rtc fuel s =
      if cmosRounds (m.registers regb) none snaps < 2 ^ 31 then
        log (timeArgs (m.decoded regb)) else none := by
    intro fuel hfuel
    rw [timeCommand, hends fuel hfuel]
    split_ifs <;> rfl
  have hright : log (timeArgs (m.decoded regb)) = some m.text ↔ m.decoded regb = m.datetime := by
    refine (log_timeArgs_iff m _).trans ?_
    simp only [Moment.decoded, Moment.datetime, Datetime.mk.injEq, true_and, and_true]
  rw [← Moment.decoded_iff, ← hright]
  constructor
  · rintro ⟨bound', h⟩
    have he := hcommand (max bound bound') (Nat.le_max_left ..)
    rw [h _ (Nat.le_max_right ..)] at he
    split_ifs at he with hlt
    exact ⟨he.symm, hlt⟩
  · rintro ⟨he, hlt⟩
    exact ⟨bound, fun fuel hfuel => (hcommand fuel hfuel).trans ((if_pos hlt).trans he)⟩

theorem time_prints_firstNoon : (stillRtc 0x02#8 (firstNoon.registers 0x02#8)).Prints ⟨0#8, 0⟩
    (chars "The system time is 2017-01-01 12:00:00\n") := by
  have htext : firstNoon.text = chars "The system time is 2017-01-01 12:00:00\n" := by decide
  rw [← htext]
  exact (time_prints_iff firstNoon (stillRtc_presents _ _ 0) .nil fun _ => rfl).2
    ⟨by decide, by decide⟩

end Tupai
