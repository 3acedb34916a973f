import Mathlib.Data.Nat.Digits.Lemmas
import Tupai.Str

namespace Tupai
set_option autoImplicit true

/-- The integer types that `compose` is overloaded for. -/
inductive IntType where
  | int8_t | uint8_t | int16_t | uint16_t | int32_t | uint32_t | int64_t | uint64_t
deriving DecidableEq

namespace IntType

def sizeof : IntType → Nat
  | .int8_t | .uint8_t => 1
  | .int16_t | .uint16_t => 2
  | .int32_t | .uint32_t => 4
  | .int64_t | .uint64_t => 8

def signed : IntType → Bool
  | .int8_t | .int16_t | .int32_t | .int64_t => true
  | .uint8_t | .uint16_t | .uint32_t | .uint64_t => false

def width (T : IntType) : Nat := T.sizeof * 8

def unsigned : IntType → IntType
  | .int8_t | .uint8_t => .uint8_t
  | .int16_t | .uint16_t => .uint16_t
  | .int32_t | .uint32_t => .uint32_t
  | .int64_t | .uint64_t => .uint64_t

/-- The conversion to the type, with two's complement for the signed ones. -/
def conv (T : IntType) (x : Int) : Int :=
  if T.signed then Int.bmod x (2 ^ T.width) else x % 2 ^ T.width

def Holds (T : IntType) (x : Int) : Prop :=
  if T.signed then -2 ^ (T.width - 1) ≤ x ∧ x < 2 ^ (T.width - 1) else 0 ≤ x ∧ x < 2 ^ T.width

instance (T : IntType) (x : Int) : Decidable (T.Holds x) :=
  inferInstanceAs (Decidable (if T.signed then -2 ^ (T.width - 1) ≤ x ∧ x < 2 ^ (T.width - 1)
    else 0 ≤ x ∧ x < 2 ^ T.width))

def abs (T : IntType) (x : Int) : Int := T.conv (if x < 0 then -x else x)

end IntType

/-- A buffer of characters. A byte that was never written is `none`. -/
abbrev Buffer := Nat → Option Byte

def Buffer.set (buff : Buffer) (i : Nat) (c : Byte) : Buffer := Function.update buff i (some c)

def chr (c : Char) : Byte := BitVec.ofNat 8 c.toNat

/-- The loop that finds the size. It may not end. -/
def countDigits (T : IntType) (base : Int) : (fuel : Nat) → (test : Int) → Option Nat
  | 0, _ => none
  | fuel + 1, test =>
    if test > 0 then (countDigits T base fuel (T.conv (test.tdiv base))).map (· + 1) else some 0

def fullPad (T : IntType) (base pad : Int) : Int :=
  if pad = -1 then
    if base = 2 then T.sizeof * 8 else if base = 16 then T.sizeof * 2 else pad
  else pad

def writeSign (T : IntType) (val : Int) (buff : Buffer) : Buffer × Nat × Int :=
  if val < 0 then (buff.set 0 (chr '-'), 1, T.abs val) else (buff, 0, val)

def writeBase (base : Int) (buff : Buffer) (strCount : Nat) : Buffer × Nat :=
  if base = 2 then ((buff.set strCount (chr '0')).set (strCount + 1) (chr 'b'), strCount + 2)
  else if base = 8 then ((buff.set strCount (chr '0')).set (strCount + 1) (chr 'o'), strCount + 2)
  else if base = 16 then ((buff.set strCount (chr '0')).set (strCount + 1) (chr 'x'), strCount + 2)
  else (buff, strCount)

def writePad : (left : Nat) → Buffer → (strCount : Nat) → Buffer × Nat
  | 0, buff, strCount => (buff, strCount)
  | left + 1, buff, strCount => writePad left (buff.set strCount (chr '0')) (strCount + 1)

/-- The character of a digit, in the loop for bases up to 10 and in the one above. -/
def composeDigit (base digit : Int) : Byte :=
  if base ≤ 10 then BitVec.ofInt 8 ('0'.toNat + digit)
  else if digit ≥ 10 then BitVec.ofInt 8 ('A'.toNat + digit - 10)
  else BitVec.ofInt 8 ('0'.toNat + digit)

def writeDigits (T : IntType) (base : Int) (strCount : Nat) :
    (left i : Nat) → (val : Int) → Buffer → Buffer
  | 0, _, _, buff => buff
  | left + 1, i, val, buff =>
    writeDigits T base strCount left (i + 1) (T.conv (val.tdiv base))
      (buff.set (strCount - i - 1) (composeDigit base (val.tmod base)))

/-- The part after the size is found. -/
def composeDigits (T : IntType) (val : Int) (buff : Buffer) (base pad : Int) (digits : Nat) :
    Bool × Buffer :=
  let (buff, strCount, val) := writeSign T val buff
  let (buff, strCount) := writeBase base buff strCount
  let pad := min (T.sizeof * 8 : Int) (max 1 (fullPad T base pad))
  let (buff, strCount) := writePad (pad - digits).toNat buff strCount
  if 2 ≤ base ∧ base ≤ 16 then
    let strCount : Nat := strCount + digits
    (true, (writeDigits T base strCount digits 0 val buff).set strCount 0#8)
  else (false, buff)

/-- The result and the buffer, unless the fuel does not suffice. -/
def composeInteger (T : IntType) (fuel : Nat) (val : Int) (buff : Buffer) (n : Nat)
    (base pad : Int) : Option (Bool × Buffer) :=
  if n < T.sizeof * 8 + 4 then some (false, buff)
  else if base ≤ 0 then some (false, buff)
  else (countDigits T base fuel (T.abs val)).map (composeDigits T val buff base pad)

/-- `compose` of an integer type returns. -/
def Composes (T : IntType) (val : Int) (buff : Buffer) (n : Nat) (base pad : Int)
    (result : Bool × Buffer) : Prop :=
  ∃ fuel, composeInteger T fuel val buff n base pad = some result

namespace IntType

theorem two_pow_width (T : IntType) : (2 : Int) ^ T.width = 2 * 2 ^ (T.width - 1) := by
  cases T <;> rfl

theorem conv_eq {T : IntType} (h : T.Holds x) : T.conv x = x := by
  rw [Holds] at h
  rw [conv]
  split_ifs at h ⊢
  · have hpow := T.two_pow_width
    apply Int.bmod_eq_of_le_mul_two
    · push_cast
      omega
    · push_cast
      omega
  · exact Int.emod_eq_of_lt h.1 h.2

theorem Holds.of_le {T : IntType} (h : T.Holds x) (h0 : 0 ≤ y) (hle : y ≤ x) : T.Holds y := by
  rw [Holds] at h ⊢
  split_ifs at h ⊢
  · have hpos : (0 : Int) < 2 ^ (T.width - 1) := by positivity
    omega
  · omega

theorem Holds.lt {T : IntType} (h : T.Holds x) : x < 2 ^ T.width := by
  rw [Holds] at h
  split_ifs at h
  · have hpow := T.two_pow_width
    omega
  · exact h.2

theorem abs_of_nonneg {T : IntType} (h : T.Holds x) (h0 : 0 ≤ x) : T.abs x = x := by
  rw [abs, if_neg (Int.not_lt.2 h0), conv_eq h]

theorem abs_of_neg {T : IntType} (h : T.Holds x) (h0 : x < 0) (hmin : x ≠ -2 ^ (T.width - 1)) :
    T.abs x = -x := by
  rw [abs, if_pos h0]
  apply conv_eq
  rw [Holds] at h ⊢
  split_ifs at h ⊢ <;> omega

/-- The most negative value has no positive counterpart. -/
theorem abs_min {T : IntType} (hs : T.signed = true) :
    T.abs (-2 ^ (T.width - 1)) = -2 ^ (T.width - 1) := by
  cases T <;> first | rfl | cases hs

theorem Holds.abs {T : IntType} (h : T.Holds x) : T.Holds (T.abs x) := by
  by_cases h0 : 0 ≤ x
  · rwa [abs_of_nonneg h h0]
  · by_cases hmin : x = -2 ^ (T.width - 1)
    · have hs : T.signed = true := by
        rw [Holds] at h
        split_ifs at h with hs
        · exact hs
        · exact absurd h.1 h0
      rw [hmin] at h ⊢
      rwa [abs_min hs]
    · rw [abs_of_neg h (Int.not_le.1 h0) hmin]
      rw [Holds] at h ⊢
      split_ifs at h ⊢ <;> omega

end IntType

theorem conv_tdiv {T : IntType} {m : Nat} (h : T.Holds m) (base : Nat) :
    T.conv ((m : Int).tdiv base) = (m / base : Nat) := by
  have hdiv : (m : Int).tdiv base = (m / base : Nat) := Int.ofNat_tdiv m base
  rw [hdiv]
  apply IntType.conv_eq
  exact h.of_le (Int.natCast_nonneg _) (Int.ofNat_le.2 (Nat.div_le_self m base))

theorem countDigits_eq {T : IntType} {base : Nat} (hb : 1 < base) {m : Nat} (h : T.Holds m)
    (hfuel : (base.digits m).length < fuel) :
    countDigits T base fuel m = some (base.digits m).length := by
  induction fuel generalizing m with
  | zero => exact absurd hfuel (Nat.not_lt_zero _)
  | succ fuel ih =>
    rw [countDigits]
    by_cases hpos : 0 < m
    · rw [Nat.digits_def' hb hpos, List.length_cons] at hfuel ⊢
      have hdiv : T.Holds (m / base : Nat) :=
        h.of_le (Int.natCast_nonneg _) (Int.ofNat_le.2 (Nat.div_le_self m base))
      rw [if_pos (Int.natCast_pos.2 hpos), conv_tdiv h, ih hdiv (Nat.lt_of_succ_lt_succ hfuel)]
      rfl
    · have hzero : m = 0 := Nat.eq_zero_of_not_pos hpos
      rw [hzero, if_neg (by decide), Nat.digits_zero]
      rfl

theorem countDigits_of_nonpos (h : x ≤ 0) (T : IntType) (base : Int) (fuel : Nat) :
    countDigits T base (fuel + 1) x = some 0 := by
  rw [countDigits, if_neg (Int.not_lt.2 h)]

/-- Divided by 1 a value never becomes smaller. -/
theorem countDigits_one {T : IntType} (h : T.Holds x) (hpos : 0 < x) (fuel : Nat) :
    countDigits T 1 fuel x = none := by
  induction fuel with
  | zero => rfl
  | succ fuel ih =>
    rw [countDigits, if_pos hpos, Int.tdiv_one, IntType.conv_eq h, ih]
    rfl

theorem countDigits_mono (h : countDigits T base fuel x = some d) (hle : fuel ≤ fuel') :
    countDigits T base fuel' x = some d := by
  induction fuel generalizing fuel' x d with
  | zero => cases h
  | succ fuel ih =>
    obtain ⟨fuel', rfl⟩ := Nat.exists_eq_add_of_le' (Nat.lt_of_lt_of_le (Nat.succ_pos fuel) hle)
    rw [countDigits] at h ⊢
    split_ifs at h ⊢
    · obtain ⟨d', hd, rfl⟩ := Option.map_eq_some_iff.1 h
      rw [ih hd (Nat.le_of_succ_le_succ hle)]
      rfl
    · exact h

theorem composeInteger_mono (h : composeInteger T fuel val buff n base pad = some r)
    (hle : fuel ≤ fuel') : composeInteger T fuel' val buff n base pad = some r := by
  rw [composeInteger] at h ⊢
  split_ifs at h ⊢
  · exact h
  · exact h
  · obtain ⟨digits, hd, rfl⟩ := Option.map_eq_some_iff.1 h
    rw [countDigits_mono hd hle]
    rfl

theorem Composes.unique (h : Composes T val buff n base pad r)
    (h' : Composes T val buff n base pad r') : r = r' := by
  obtain ⟨fuel, h⟩ := h
  obtain ⟨fuel', h'⟩ := h'
  have hmax := composeInteger_mono h (Nat.le_max_left fuel fuel')
  exact Option.some.inj (hmax.symm.trans (composeInteger_mono h' (Nat.le_max_right fuel fuel')))

/-- A call that gets beyond its checks returns once it has counted the digits. -/
theorem Composes.of_count (hn : T.width + 4 ≤ n) (hb : 0 < base)
    (hd : countDigits T base fuel (T.abs val) = some digits) :
    Composes T val buff n base pad (composeDigits T val buff base pad digits) := by
  have hroom : ¬ n < T.sizeof * 8 + 4 := Nat.not_lt.2 hn
  refine ⟨fuel, ?_⟩
  rw [composeInteger, if_neg hroom, if_neg (Int.not_le.2 hb), hd]
  rfl

end Tupai
