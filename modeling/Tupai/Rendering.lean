import Tupai.Conv

namespace Tupai
set_option autoImplicit true

/-- The buffer has these bytes at its start. -/
def Buffer.Starts (buff : Buffer) (s : Chars) : Prop :=
  ∀ (i : Nat) (c : Byte), s[i]? = some c → buff i = some c

/-- The buffer holds a string and its NUL. -/
def Buffer.Text (buff : Buffer) (s : Chars) : Prop :=
  (∀ c ∈ s, c ≠ 0#8) ∧ buff.Starts (s ++ [0#8])

/-- The upper-case character of a digit. -/
def digitChar (d : Nat) : Byte :=
  BitVec.ofNat 8 (if d < 10 then '0'.toNat + d else 'A'.toNat + d - 10)

def basePrefix (base : Nat) : Chars :=
  if base = 2 then [chr '0', chr 'b'] else if base = 8 then [chr '0', chr 'o']
  else if base = 16 then [chr '0', chr 'x'] else []

/-- The least number of digits that a pad asks for. A pad of -1 asks for all of them in the bases
2 and 16. -/
def leastDigits (T : IntType) (base : Nat) (pad : Int) : Nat :=
  (min (T.width : Int) (max 1
    (if pad = -1 ∧ base = 2 then T.width else if pad = -1 ∧ base = 16 then T.width / 4
      else pad))).toNat

/-- A number in a base, with its prefix and with zeros in front. -/
def numeral (T : IntType) (base : Nat) (pad : Int) (m : Nat) : Chars :=
  basePrefix base ++ (base.digitsAppend (leastDigits T base pad) m).reverse.map digitChar

theorem Buffer.Starts.append {buff : Buffer} (h : buff.Starts s) (hc : buff s.length = some c) :
    buff.Starts (s ++ [c]) := by
  intro i b hb
  rcases Nat.lt_or_ge i s.length with hlt | hge
  · rw [List.getElem?_append_left hlt] at hb
    exact h i b hb
  · rw [List.getElem?_append_right hge] at hb
    obtain ⟨hzero, he⟩ := List.getElem?_eq_some_iff.1 hb
    have hi : i = s.length := by
      rw [List.length_singleton] at hzero
      omega
    rw [hi, hc, ← he]
    simp only [hi, Nat.sub_self, List.getElem_cons_zero]

theorem Buffer.Starts.keep {buff buff' : Buffer} (h : buff.Starts s)
    (hk : ∀ i < s.length, buff' i = buff i) : buff'.Starts s := by
  intro i c hc
  rw [hk i (List.getElem?_eq_some_iff.1 hc).1]
  exact h i c hc

theorem Buffer.Starts.set {buff : Buffer} (h : buff.Starts s) (c : Byte) :
    (buff.set s.length c).Starts (s ++ [c]) := by
  apply Buffer.Starts.append
  · exact h.keep fun i hi => Function.update_of_ne (Nat.ne_of_lt hi) ..
  · exact Function.update_self ..

theorem writePad_spec (h : buff.Starts s) (left : Nat) :
    ∃ buff', writePad left buff s.length =
        (buff', (s ++ List.replicate left (chr '0')).length) ∧
      buff'.Starts (s ++ List.replicate left (chr '0')) := by
  induction left generalizing buff s with
  | zero =>
    rw [List.replicate_zero, List.append_nil]
    exact ⟨buff, rfl, h⟩
  | succ left ih =>
    have hnext := ih (h.set (chr '0'))
    rw [List.length_append, List.length_singleton, List.append_assoc, List.singleton_append,
      ← List.replicate_succ] at hnext
    exact hnext

theorem writeBase_spec (h : buff.Starts s) (base : Nat) :
    ∃ buff', writeBase base buff s.length = (buff', (s ++ basePrefix base).length) ∧
      buff'.Starts (s ++ basePrefix base) := by
  have htwo (c d : Byte) : ∃ buff', ((buff.set s.length c).set (s.length + 1) d, s.length + 2) =
      (buff', (s ++ [c, d]).length) ∧ buff'.Starts (s ++ [c, d]) := by
    have hset := (h.set c).set d
    rw [List.length_append, List.length_singleton, List.append_assoc] at hset
    rw [List.length_append]
    exact ⟨_, rfl, hset⟩
  rw [writeBase, basePrefix]
  norm_cast
  split_ifs
  · exact htwo _ _
  · exact htwo _ _
  · exact htwo _ _
  · rw [List.append_nil]
    exact ⟨buff, rfl, h⟩

theorem composeDigit_eq {base d : Nat} (hd : d < base) (hb : base ≤ 16) :
    composeDigit base d = digitChar d := by
  have key : ∀ b : Fin 17, ∀ d : Fin 16, d.val < b.val →
      composeDigit b.val d.val = digitChar d.val := by decide
  exact key ⟨base, by omega⟩ ⟨d, by omega⟩ hd

theorem writeDigits_spec {base : Nat} (hb : 1 < base) (hb' : base ≤ 16) {m : Nat} (hm : T.Holds m)
    (h : buff.Starts s) (htotal : total = s.length + (base.digits m).length + i) :
    (writeDigits T base total (base.digits m).length i m buff).Starts
        (s ++ (base.digits m).reverse.map digitChar) ∧
      ∀ j, s.length + (base.digits m).length ≤ j →
        writeDigits T base total (base.digits m).length i m buff j = buff j := by
  generalize hl : (base.digits m).length = left at htotal
  induction left generalizing m i buff with
  | zero =>
    rw [List.length_eq_zero_iff.1 hl, List.reverse_nil, List.map_nil, List.append_nil]
    exact ⟨h, fun _ _ => rfl⟩
  | succ left ih =>
    have hpos : 0 < m := by
      by_contra hzero
      rw [Nat.eq_zero_of_not_pos hzero, Nat.digits_zero] at hl
      cases hl
    have hdiv : T.Holds (m / base : Nat) :=
      hm.of_le (Int.natCast_nonneg _) (Int.ofNat_le.2 (Nat.div_le_self m base))
    have hmod : (m : Int).tmod base = (m % base : Nat) := Int.ofNat_tmod m base
    rw [Nat.digits_def' hb hpos] at hl ⊢
    rw [writeDigits, conv_tdiv hm, hmod, composeDigit_eq (Nat.mod_lt m (by omega)) hb']
    have hat : total - i - 1 = s.length + left := by omega
    rw [hat]
    have hstart : (buff.set (s.length + left) (digitChar (m % base))).Starts s :=
      h.keep fun j hj => Function.update_of_ne (by omega) ..
    obtain ⟨hdigits, hrest⟩ := ih (i := i + 1) hdiv hstart (Nat.succ.inj hl) (by omega)
    refine ⟨?_, fun j hj => ?_⟩
    · rw [List.reverse_cons, List.map_append, ← List.append_assoc]
      apply hdigits.append
      rw [List.length_append, List.length_map, List.length_reverse, Nat.succ.inj hl,
        hrest _ (Nat.le_refl _)]
      exact Function.update_self ..
    · rw [hrest j (by omega)]
      exact Function.update_of_ne (by omega) ..

def signText (val : Int) : Chars := if val < 0 then [chr '-'] else []

theorem writeSign_spec (hv : T.Holds val) (buff : Buffer) :
    ∃ buff', writeSign T val buff = (buff', (signText val).length, T.abs val) ∧
      buff'.Starts (signText val) := by
  have hnil : buff.Starts [] := fun i c hc => by cases hc
  rw [writeSign, signText]
  split_ifs with h
  · exact ⟨_, rfl, hnil.set (chr '-')⟩
  · rw [IntType.abs_of_nonneg hv (Int.not_lt.1 h)]
    exact ⟨buff, rfl, hnil⟩

theorem leastDigits_eq (T : IntType) (base : Nat) (pad : Int) :
    min (T.sizeof * 8 : Int) (max 1 (fullPad T base pad)) = (leastDigits T base pad : Nat) := by
  have hwidth : (T.width : Int) = T.sizeof * 8 := rfl
  have hfull : fullPad T base pad = if pad = -1 ∧ base = 2 then (T.width : Int)
      else if pad = -1 ∧ base = 16 then T.width / 4 else pad := by
    rw [fullPad]
    norm_cast
    split_ifs <;> omega
  have hpos : (1 : Int) ≤ T.width := by cases T <;> decide
  rw [leastDigits, ← hfull, ← hwidth, Int.toNat_of_nonneg]
  omega

theorem numeral_eq (T : IntType) (base : Nat) (pad : Int) (m : Nat) :
    numeral T base pad m = basePrefix base ++
      (List.replicate (leastDigits T base pad - (base.digits m).length) (chr '0') ++
        (base.digits m).reverse.map digitChar) := by
  rw [numeral, Nat.digitsAppend, List.reverse_append, List.reverse_replicate, List.map_append,
    List.map_replicate]
  rfl

/-- The digits and the NUL. A value that is not positive has no digits. -/
theorem writeDigits_toNat {base : Nat} (hb : 1 < base) (hb' : base ≤ 16) (hx : T.Holds x)
    (h : buff.Starts s) :
    ((writeDigits T base (s.length + (base.digits x.toNat).length) (base.digits x.toNat).length 0 x
      buff).set (s.length + (base.digits x.toNat).length) 0#8).Starts
        (s ++ (base.digits x.toNat).reverse.map digitChar ++ [0#8]) := by
  have hdigits : (writeDigits T base (s.length + (base.digits x.toNat).length)
      (base.digits x.toNat).length 0 x buff).Starts
        (s ++ (base.digits x.toNat).reverse.map digitChar) := by
    rcases Int.le_total 0 x with h0 | h0
    · obtain ⟨m, rfl⟩ := Int.eq_ofNat_of_zero_le h0
      rw [Int.toNat_natCast]
      exact (writeDigits_spec hb hb' hx h (Nat.add_zero _).symm).1
    · rw [Int.toNat_of_nonpos h0, Nat.digits_zero, List.reverse_nil, List.map_nil, List.append_nil]
      exact h
  have hset := hdigits.set 0#8
  rwa [List.length_append, List.length_map, List.length_reverse] at hset

/-- What is written is the sign, the numeral of the magnitude, and a NUL. -/
theorem composeDigits_text {base : Nat} (hb : 1 < base) (hb' : base ≤ 16) (hv : T.Holds val)
    (buff : Buffer) (pad : Int) :
    ∃ buff', composeDigits T val buff base pad (base.digits (T.abs val).toNat).length =
        (true, buff') ∧
      buff'.Starts (signText val ++ numeral T base pad (T.abs val).toNat ++ [0#8]) := by
  obtain ⟨buff₁, hsign, h₁⟩ := writeSign_spec hv buff
  obtain ⟨buff₂, hbase, h₂⟩ := writeBase_spec h₁ base
  obtain ⟨buff₃, hpad, h₃⟩ := writePad_spec h₂
    (leastDigits T base pad - (base.digits (T.abs val).toNat).length)
  have hleft : ((leastDigits T base pad : Int) - (base.digits (T.abs val).toNat).length).toNat =
      leastDigits T base pad - (base.digits (T.abs val).toNat).length := Int.toNat_sub _ _
  have hrange : 2 ≤ (base : Int) ∧ (base : Int) ≤ 16 := by omega
  rw [composeDigits, hsign]
  dsimp only
  rw [hbase]
  dsimp only
  rw [leastDigits_eq, hleft, hpad, if_pos hrange]
  refine ⟨_, rfl, ?_⟩
  rw [numeral_eq, ← List.append_assoc, ← List.append_assoc]
  exact writeDigits_toNat hb hb' hv.abs h₃

theorem digitChar_ne (hd : d < 16) : digitChar d ≠ 0#8 := by
  have key : ∀ d : Fin 16, digitChar d.val ≠ 0#8 := by decide
  exact key ⟨d, hd⟩

theorem basePrefix_ne (base : Nat) : ∀ c ∈ basePrefix base, c ≠ 0#8 := by
  rw [basePrefix]
  split_ifs <;> decide

theorem signText_ne (val : Int) : ∀ c ∈ signText val, c ≠ 0#8 := by
  rw [signText]
  split_ifs <;> decide

theorem numeral_ne {base : Nat} (hb : 1 < base) (hb' : base ≤ 16) :
    ∀ c ∈ numeral T base pad m, c ≠ 0#8 := by
  intro c hc
  rcases List.mem_append.1 hc with hc | hc
  · exact basePrefix_ne base c hc
  · obtain ⟨d, hd, rfl⟩ := List.mem_map.1 hc
    apply digitChar_ne
    exact Nat.lt_of_lt_of_le (Nat.lt_of_mem_digitsAppend hb _ _ (List.mem_reverse.1 hd)) hb'

theorem countDigits_abs {base : Nat} (hb : 1 < base) (hv : T.Holds val) :
    countDigits T base ((base.digits (T.abs val).toNat).length + 1) (T.abs val) =
      some (base.digits (T.abs val).toNat).length := by
  have habs := hv.abs
  rcases Int.le_total 0 (T.abs val) with h0 | h0
  · obtain ⟨m, hm⟩ := Int.eq_ofNat_of_zero_le h0
    rw [hm] at habs ⊢
    exact countDigits_eq hb habs (Nat.lt_succ_self _)
  · rw [countDigits_of_nonpos h0, Int.toNat_of_nonpos h0, Nat.digits_zero]
    rfl

theorem composes_text {base : Nat} (hb : 1 < base) (hb' : base ≤ 16) (hv : T.Holds val)
    (hn : T.width + 4 ≤ n) (buff : Buffer) (pad : Int) :
    ∃ buff', Composes T val buff n base pad (true, buff') ∧
      buff'.Text (signText val ++ numeral T base pad (T.abs val).toNat) := by
  obtain ⟨buff', hcompose, hstart⟩ := composeDigits_text hb hb' hv buff pad
  have hresult : Composes T val buff n base pad _ :=
    .of_count hn (Int.natCast_pos.2 (Nat.lt_of_succ_lt hb)) (countDigits_abs hb hv)
  rw [hcompose] at hresult
  refine ⟨buff', hresult, fun c hc => ?_, hstart⟩
  rcases List.mem_append.1 hc with hc | hc
  · exact signText_ne val c hc
  · exact numeral_ne hb hb' c hc

/-- The string that `compose` leaves for a value of an unsigned type: the prefix and as many valid
digits as the value and the pad ask for, which denote the value. -/
def RendersExactly (T : IntType) (v n base : Nat) (pad : Int) (buff : Buffer) : Prop :=
  ∃ (buff' : Buffer) (digits : List Nat), Composes T v buff n base pad (true, buff') ∧
    buff'.Text (basePrefix base ++ digits.map digitChar) ∧
    digits.length = max (base.digits v).length (leastDigits T base pad) ∧
    (∀ d ∈ digits, d < base) ∧ Nat.ofDigits base digits.reverse = v

/-- A value of a signed type is written as its magnitude is, with a sign if it is negative. -/
def SignedAgrees (T : IntType) (val : Int) (n base : Nat) (pad : Int) : Prop :=
  ∀ buff₁ buff₂ : Buffer, ∃ s buff₁' buff₂',
    Composes T.unsigned val.natAbs buff₁ n base pad (true, buff₁') ∧ buff₁'.Text s ∧
    Composes T val buff₂ n base pad (true, buff₂') ∧ buff₂'.Text (signText val ++ s)

theorem IntType.holds_natCast {T : IntType} (hs : T.signed = false) {v : Nat}
    (hv : v < 2 ^ T.width) : T.Holds v := by
  rw [IntType.Holds, hs]
  exact ⟨Int.natCast_nonneg v, by exact_mod_cast hv⟩

/-- Unsigned values are rendered exactly. -/
theorem composes_unsigned {base : Nat} (hs : T.signed = false) {v : Nat} (hv : v < 2 ^ T.width)
    (hb : 2 ≤ base) (hb' : base ≤ 16) (hn : T.width + 4 ≤ n) (pad : Int) (buff : Buffer) :
    RendersExactly T v n base pad buff := by
  have hholds := IntType.holds_natCast hs hv
  obtain ⟨buff', hcompose, htext⟩ := composes_text hb hb' hholds hn buff pad
  rw [IntType.abs_of_nonneg hholds (Int.natCast_nonneg v), Int.toNat_natCast, signText,
    if_neg (Int.not_lt.2 (Int.natCast_nonneg v)), List.nil_append] at htext
  refine ⟨buff', _, hcompose, htext, ?_, fun d hd => ?_, ?_⟩
  · rw [List.length_reverse, Nat.digitsAppend, List.length_append, List.length_replicate]
    omega
  · exact Nat.lt_of_mem_digitsAppend hb _ _ (List.mem_reverse.1 hd)
  · rw [List.reverse_reverse, Nat.digitsAppend, Nat.ofDigits_append_replicate_zero,
      Nat.ofDigits_digits]

theorem composes_unsigned_byte : RendersExactly .uint8_t 0xAB 12 16 (-1) fun _ => none :=
  composes_unsigned rfl (by decide) (by decide) (by decide) (by decide) (-1) _

theorem IntType.unsigned_signed (T : IntType) : T.unsigned.signed = false := by
  cases T <;> rfl

theorem IntType.unsigned_width (T : IntType) : T.unsigned.width = T.width := by
  cases T <;> rfl

theorem numeral_unsigned (T : IntType) (base : Nat) (pad : Int) (m : Nat) :
    numeral T.unsigned base pad m = numeral T base pad m := by
  rw [numeral, numeral, leastDigits, leastDigits, T.unsigned_width]

def digitVal (c : Byte) : Nat := if c.toNat < 'A'.toNat then c.toNat - 48 else c.toNat - 55

theorem digitVal_digitChar (hd : d < 16) : digitVal (digitChar d) = d := by
  have key : ∀ d : Fin 16, digitVal (digitChar d.val) = d.val := by decide
  exact key ⟨d, hd⟩

theorem numeral_inj {base : Nat} (hb : 1 < base) (hb' : base ≤ 16)
    (h : numeral T base pad m = numeral T base pad m') : m = m' := by
  have hval (m : Nat) : ((base.digitsAppend (leastDigits T base pad) m).reverse.map digitChar).map
      digitVal = (base.digitsAppend (leastDigits T base pad) m).reverse := by
    rw [List.map_map]
    refine (List.map_congr_left fun d hd => ?_).trans (List.map_id _)
    exact digitVal_digitChar
      (Nat.lt_of_lt_of_le (Nat.lt_of_mem_digitsAppend hb _ _ (List.mem_reverse.1 hd)) hb')
  have hdigits := List.append_cancel_left h
  have he := congrArg (List.map digitVal) hdigits
  rw [hval, hval, List.reverse_inj] at he
  have hof := congrArg (Nat.ofDigits base) he
  rwa [Nat.digitsAppend, Nat.digitsAppend, Nat.ofDigits_append_replicate_zero,
    Nat.ofDigits_append_replicate_zero, Nat.ofDigits_digits, Nat.ofDigits_digits] at hof

theorem Buffer.Text.length_le {buff : Buffer} (h : buff.Text s) (h' : buff.Text s') :
    s'.length ≤ s.length := by
  by_contra hlt
  rw [Nat.not_le] at hlt
  have hzero : buff s.length = some 0#8 := by
    apply h.2
    rw [List.getElem?_append_right (Nat.le_refl _), Nat.sub_self]
    rfl
  have hchar : buff s.length = some s'[s.length] := by
    apply h'.2
    rw [List.getElem?_append_left hlt, List.getElem?_eq_getElem hlt]
  rw [hzero] at hchar
  exact h'.1 _ (List.getElem_mem hlt) (Option.some.inj hchar).symm

theorem Buffer.Text.unique {buff : Buffer} (h : buff.Text s) (h' : buff.Text s') : s = s' := by
  have hlen : s.length = s'.length := Nat.le_antisymm (h'.length_le h) (h.length_le h')
  apply List.ext_getElem hlen
  intro i hi hi'
  have hat : buff i = some s[i] := by
    apply h.2
    rw [List.getElem?_append_left hi, List.getElem?_eq_getElem hi]
  have hat' : buff i = some s'[i] := by
    apply h'.2
    rw [List.getElem?_append_left hi', List.getElem?_eq_getElem hi']
  exact Option.some.inj (hat.symm.trans hat')

theorem IntType.Holds.natAbs_lt {T : IntType} (h : T.Holds x) : x.natAbs < 2 ^ T.width := by
  have hlt : (x.natAbs : Int) < 2 ^ T.width := by
    rw [IntType.Holds] at h
    split_ifs at h
    · have hpow := T.two_pow_width
      have hpos : (0 : Int) < 2 ^ (T.width - 1) := by positivity
      omega
    · omega
  exact_mod_cast hlt

section signed

variable {T : IntType} {val : Int} {n base : Nat}
variable (hb : 2 ≤ base) (hb' : base ≤ 16) (hn : T.width + 4 ≤ n)

include hb hb' hn

theorem composes_natAbs (hv : T.Holds val) (buff : Buffer) (pad : Int) :
    ∃ buff', Composes T.unsigned val.natAbs buff n base pad (true, buff') ∧
      buff'.Text (numeral T base pad val.natAbs) := by
  have hlt : val.natAbs < 2 ^ T.unsigned.width := by
    rw [T.unsigned_width]
    exact hv.natAbs_lt
  have hholds := IntType.holds_natCast T.unsigned_signed hlt
  have hn' : T.unsigned.width + 4 ≤ n := by rwa [T.unsigned_width]
  obtain ⟨buff', hcompose, htext⟩ := composes_text hb hb' hholds hn' buff pad
  rw [IntType.abs_of_nonneg hholds (Int.natCast_nonneg _), Int.toNat_natCast, signText,
    if_neg (Int.not_lt.2 (Int.natCast_nonneg _)), List.nil_append, numeral_unsigned] at htext
  exact ⟨buff', hcompose, htext⟩

theorem not_signedAgrees_min (hs : T.signed = true) (hv : T.Holds (-2 ^ (T.width - 1)))
    (pad : Int) : ¬ SignedAgrees T (-2 ^ (T.width - 1)) n base pad := by
  intro h
  obtain ⟨s, buff₁, buff₂, h₁, ht₁, h₂, ht₂⟩ := h (fun _ => none) fun _ => none
  obtain ⟨_, h₁', ht₁'⟩ := composes_natAbs hb hb' hn hv (fun _ => none) pad
  obtain ⟨_, h₂', ht₂'⟩ := composes_text hb hb' hv hn (fun _ => none) pad
  cases h₁.unique h₁'
  cases h₂.unique h₂'
  have htext := ht₂.unique ht₂'
  rw [ht₁.unique ht₁', IntType.abs_min hs] at htext
  have hzero := numeral_inj hb hb' (List.append_cancel_left htext)
  have hpos : (0 : Int) < 2 ^ (T.width - 1) := by positivity
  omega

/-- Signed rendering agrees with unsigned rendering exactly where the value has a magnitude in its
type. -/
theorem signedAgrees_iff (hs : T.signed = true) (hv : T.Holds val) (pad : Int) :
    SignedAgrees T val n base pad ↔ val ≠ -2 ^ (T.width - 1) := by
  constructor
  · rintro h rfl
    exact not_signedAgrees_min hb hb' hn hs hv pad h
  · intro hmin buff₁ buff₂
    obtain ⟨buff₁', h₁, ht₁⟩ := composes_natAbs hb hb' hn hv buff₁ pad
    obtain ⟨buff₂', h₂, ht₂⟩ := composes_text hb hb' hv hn buff₂ pad
    have habs : (T.abs val).toNat = val.natAbs := by
      rcases lt_or_ge val 0 with h0 | h0
      · rw [IntType.abs_of_neg hv h0 hmin]
        omega
      · rw [IntType.abs_of_nonneg hv h0]
        omega
    rw [habs] at ht₂
    exact ⟨_, buff₁', buff₂', h₁, ht₁, h₂, ht₂⟩

end signed

theorem signedAgrees_byte : SignedAgrees .int8_t (-5) 12 10 3 :=
  (signedAgrees_iff (by decide) (by decide) (by decide) rfl (by decide) 3).2 (by decide)

/-- The text of -128 is "-0". -/
theorem not_signedAgrees_byte :
    (∃ buff, Composes .int8_t (-128) (fun _ => none) 12 10 0 (true, buff) ∧
      buff.Starts [chr '-', chr '0', 0#8]) ∧ ¬ SignedAgrees .int8_t (-128) 12 10 0 := by
  refine ⟨⟨_, ⟨1, rfl⟩, ?_⟩, ?_⟩
  · intro i c hc
    match i, hc with
    | 0, rfl => rfl
    | 1, rfl => rfl
    | 2, rfl => rfl
  · exact not_signedAgrees_min (T := .int8_t) (by decide) (by decide) (by decide) rfl (by decide) 0

end Tupai
