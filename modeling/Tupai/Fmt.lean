import Mathlib.Data.List.Forall2
import Tupai.Rendering

namespace Tupai
set_option autoImplicit true

def chars (s : String) : Chars := s.toList.map chr

/-- The string in a buffer of this size. Reading what was never written, or behind the buffer, has
no meaning. -/
def Buffer.fmt (buff : Buffer) : (left i : Nat) → Option Chars
  | 0, _ => none
  | left + 1, i => do
    let c ← buff i
    if c = 0#8 then return [] else return c :: (← buff.fmt left (i + 1))

/-- `__fmt_arg` of an integer, whose local buffer is not initialised. What `compose` returns is not
looked at. -/
def fmtInt (T : IntType) (val base pad : Int) : Option Chars :=
  (composeInteger T (T.width + 1) val (fun _ => none) (T.sizeof * 8 + 4) base pad).bind
    fun r => r.2.fmt (T.sizeof * 8 + 4) 0

/-- The arguments that `fmt` and `log` are called with. -/
inductive FmtArg where
  | str (s : Chars)
  | char (c : Byte)
  | int (T : IntType) (val base pad : Int)

/-- What `__fmt_arg` writes. -/
def FmtArg.fmt : FmtArg → Option Chars
  | .str s => some (cstr s)
  | .char c => some [c]
  | .int T val base pad => fmtInt T val base pad

def log : (args : List FmtArg) → Option Chars
  | [] => some []
  | arg :: args => do return (← arg.fmt) ++ (← log args)

def logln (args : List FmtArg) : Option Chars := log (args ++ [.char 0x0A#8])

/-- The decimal digits of a number. -/
def decimal (m : Nat) : Chars := (Nat.digitsAppend 10 1 m).reverse.map digitChar

theorem chars_append (s t : String) : chars (s ++ t) = chars s ++ chars t := by
  rw [chars, String.toList_append, List.map_append]
  rfl

theorem mem_chars {l : List Char} (hl : ∀ c ∈ l, c.toNat < 0x80)
    (hb : b ∈ chars (String.ofList l)) : ∃ c ∈ l, b.toNat = c.toNat := by
  rw [chars, String.toList_ofList] at hb
  obtain ⟨c, hc, rfl⟩ := List.mem_map.1 hb
  have hlt := hl c hc
  refine ⟨c, hc, ?_⟩
  rw [chr, BitVec.toNat_ofNat, Nat.mod_eq_of_lt (by omega)]

variable {T : IntType} {buff : Buffer}

theorem Buffer.fmt_starts (hs : ∀ c ∈ s, c ≠ 0#8)
    (h : ∀ (j : Nat) (c : Byte), (s ++ [0#8])[j]? = some c → buff (i + j) = some c)
    (hlen : s.length < left) : buff.fmt left i = some s := by
  induction s generalizing left i with
  | nil =>
    obtain ⟨left, rfl⟩ := Nat.exists_eq_succ_of_ne_zero (Nat.ne_zero_of_lt hlen)
    have hnul : buff i = some 0#8 := h 0 0#8 rfl
    rw [Buffer.fmt, hnul]
    rfl
  | cons c s ih =>
    obtain ⟨left, rfl⟩ := Nat.exists_eq_succ_of_ne_zero (Nat.ne_zero_of_lt hlen)
    have hc : buff i = some c := h 0 c rfl
    have hrest : buff.fmt left (i + 1) = some s := by
      refine ih (fun d hd => hs d (List.mem_cons_of_mem c hd)) (fun j d hd => ?_)
        (Nat.lt_of_succ_lt_succ hlen)
      rw [Nat.add_assoc, Nat.add_comm 1]
      exact h (j + 1) d hd
    rw [Buffer.fmt, hc, hrest]
    exact if_neg (hs c List.mem_cons_self)

theorem Buffer.Text.fmt (h : buff.Text s) (hlen : s.length < n) : buff.fmt n 0 = some s :=
  Buffer.fmt_starts h.1 (fun j c hc => by rw [Nat.zero_add]; exact h.2 j c hc) hlen

theorem length_digits_le {base : Nat} (hb : 1 < base) (hm : m < 2 ^ w) :
    (base.digits m).length ≤ w := by
  rw [Nat.digits_length_le_iff hb]
  exact hm.trans_le (Nat.pow_le_pow_left hb w)

theorem leastDigits_le (T : IntType) (base : Nat) (pad : Int) : leastDigits T base pad ≤ T.width := by
  rw [leastDigits]
  omega

/-- Every numeral has room in the buffer that its type gets. -/
theorem length_numeral_le {base : Nat} (hb : 1 < base) (hm : m < 2 ^ T.width) (pad : Int) :
    (numeral T base pad m).length ≤ T.width + 2 := by
  have hdigits := length_digits_le hb hm
  have hleast := leastDigits_le T base pad
  have hprefix : (basePrefix base).length ≤ 2 := by
    rw [basePrefix]
    split_ifs <;> decide
  rw [numeral, List.length_append, List.length_map, List.length_reverse, Nat.digitsAppend,
    List.length_append, List.length_replicate]
  omega

/-- An integer is written as its sign and the numeral of its magnitude. -/
theorem fmtInt_eq {base : Nat} (hb : 1 < base) (hb' : base ≤ 16) (hv : T.Holds val) (pad : Int) :
    fmtInt T val base pad = some (signText val ++ numeral T base pad (T.abs val).toNat) := by
  have hlt : (T.abs val).toNat < 2 ^ T.width := by
    have habs := hv.abs.lt
    have hpos : (0 : Int) < 2 ^ T.width := by positivity
    zify
    omega
  obtain ⟨buff, hcompose, hstart⟩ := composeDigits_text hb hb' hv (fun _ => none) pad
  have hcount := countDigits_mono (countDigits_abs hb hv)
    (Nat.succ_le_succ (length_digits_le hb hlt))
  have hsign : (signText val).length ≤ 1 := by
    rw [signText]
    split_ifs <;> decide
  have hlen := length_numeral_le hb hlt pad
  have htext : buff.Text (signText val ++ numeral T base pad (T.abs val).toNat) := by
    refine ⟨fun c hc => ?_, hstart⟩
    rcases List.mem_append.1 hc with hc | hc
    · exact signText_ne val c hc
    · exact numeral_ne hb hb' c hc
  have hwidth : T.width = T.sizeof * 8 := rfl
  rw [fmtInt, composeInteger, if_neg (Nat.lt_irrefl _), if_neg (by omega), hcount, Option.map_some,
    hcompose, Option.bind_some]
  apply htext.fmt
  rw [List.length_append]
  omega

theorem fmtInt_natCast {base : Nat} (hb : 1 < base) (hb' : base ≤ 16) {m : Nat} (hv : T.Holds m)
    (pad : Int) : fmtInt T m base pad = some (numeral T base pad m) := by
  rw [fmtInt_eq hb hb' hv, IntType.abs_of_nonneg hv (Int.natCast_nonneg m), Int.toNat_natCast,
    signText, if_neg (Int.not_lt.2 (Int.natCast_nonneg m)), List.nil_append]

theorem fmtInt_decimal {m : Nat} (hv : T.Holds m) : fmtInt T m 10 0 = some (decimal m) := by
  have hleast : leastDigits T 10 0 = 1 := by cases T <;> decide
  have hbase : 1 < 10 := by decide
  have hnum := fmtInt_natCast hbase (by decide) hv 0
  rw [numeral, hleast] at hnum
  exact hnum

theorem fmt_str (h : ∀ c ∈ s, c ≠ 0#8) : (FmtArg.str s).fmt = some s :=
  congrArg some (cstr_eq_self h)

theorem log_eq {args : List FmtArg} {texts : List Chars}
    (h : List.Forall₂ (fun arg text => arg.fmt = some text) args texts) :
    log args = some texts.flatten := by
  induction h with
  | nil => rfl
  | cons harg _ ih =>
    rw [log, harg, ih]
    rfl

theorem logln_eq {args : List FmtArg} {texts : List Chars}
    (h : List.Forall₂ (fun arg text => arg.fmt = some text) args texts) :
    logln args = some (texts.flatten ++ [0x0A#8]) := by
  have hline : List.Forall₂ (fun (arg : FmtArg) text => arg.fmt = some text)
      (args ++ [.char 0x0A#8]) (texts ++ [[0x0A#8]]) := List.rel_append h (.cons rfl .nil)
  rw [logln, log_eq hline, List.flatten_append]
  rfl

end Tupai
