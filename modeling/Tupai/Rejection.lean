import Tupai.Rendering

namespace Tupai
set_option autoImplicit true

/-- The call returns false and leaves the buffer as it is, whatever is in it. -/
def RejectsCleanly (T : IntType) (val : Int) (n : Nat) (base pad : Int) : Prop :=
  ∀ buff, Composes T val buff n base pad (false, buff)

/-- The buffer is too small, the base is not positive, or the value is not negative and has so
many digits in a base above 16 that no zero is written before them. -/
def RejectRoom (T : IntType) (val : Int) (n : Nat) (base pad : Int) : Prop :=
  n < T.width + 4 ∨ base ≤ 0 ∨
    (16 < base ∧ 0 ≤ val ∧ base ^ ((min (T.width : Int) (max 1 pad)).toNat - 1) ≤ val)

/-- The loop of `__fmt_arg` over a string comes to this byte. -/
def Buffer.Reads (str : Buffer) (i : Nat) : Prop := ∀ j < i, ∃ c, str j = some c ∧ c ≠ 0#8

/-- `__fmt_arg`, whose buffer is not initialised, reads only what `compose` wrote. -/
def PrintsWritten (T : IntType) (val base pad : Int) : Prop :=
  ∀ ok buff, Composes T val (fun _ => none) (T.width + 4) base pad (ok, buff) →
    ∀ i, buff.Reads i → buff i ≠ none

/-- What is written before the base is found to be unsupported. -/
def rejectText (T : IntType) (val pad : Int) (digits : Nat) : Chars :=
  signText val ++ List.replicate (min (T.width : Int) (max 1 pad) - digits).toNat (chr '0')

theorem rejectText_ne (T : IntType) (val pad : Int) (digits : Nat) :
    ∀ c ∈ rejectText T val pad digits, c ≠ 0#8 := by
  intro c hc
  rcases List.mem_append.1 hc with hc | hc
  · exact signText_ne val c hc
  · rw [List.eq_of_mem_replicate hc]
    decide

theorem writePad_rest (h : strCount + left ≤ j) : (writePad left buff strCount).1 j = buff j := by
  induction left generalizing buff strCount with
  | zero => rfl
  | succ left ih =>
    rw [writePad, ih (by omega)]
    exact Function.update_of_ne (by omega) ..

theorem writeSign_rest (h : (signText val).length ≤ j) : (writeSign T val buff).1 j = buff j := by
  rw [signText] at h
  rw [writeSign]
  split_ifs at h ⊢
  · exact Function.update_of_ne (Nat.ne_of_gt h) ..
  · rfl

variable {T : IntType} {val base pad : Int} {n : Nat}

/-- A call with an unsupported base writes the sign and the padding, and nothing else. -/
theorem composeDigits_rejected (hv : T.Holds val) (hbase : base < 2 ∨ 16 < base) (pad : Int)
    (buff : Buffer) (digits : Nat) :
    ∃ buff', composeDigits T val buff base pad digits = (false, buff') ∧
      buff'.Starts (rejectText T val pad digits) ∧
      ∀ j, (rejectText T val pad digits).length ≤ j → buff' j = buff j := by
  have hwidth : (T.width : Int) = T.sizeof * 8 := rfl
  have hpad : fullPad T base pad = pad := by
    rw [fullPad]
    split_ifs <;> omega
  obtain ⟨buff₁, hsign, h₁⟩ := writeSign_spec hv buff
  obtain ⟨buff₂, hzeros, h₂⟩ := writePad_spec h₁
    (min (T.width : Int) (max 1 pad) - digits).toNat
  have hnone : writeBase base buff₁ (signText val).length = (buff₁, (signText val).length) := by
    rw [writeBase]
    split_ifs <;> first | omega | rfl
  have hunsupported : ¬ (2 ≤ base ∧ base ≤ 16) := by omega
  rw [composeDigits, hsign]
  dsimp only
  rw [hnone]
  dsimp only
  rw [hpad, ← hwidth, hzeros, if_neg hunsupported]
  refine ⟨buff₂, rfl, h₂, fun j hj => ?_⟩
  have he := congrArg (fun r => r.1 j) hzeros
  rw [rejectText, List.length_append, List.length_replicate] at hj
  dsimp only at he
  rw [← he, writePad_rest hj]
  have he' := congrArg (fun r => r.1 j) hsign
  exact he'.symm.trans (writeSign_rest (by omega))

theorem rejectText_eq_nil (digits : Nat) : rejectText T val pad digits = [] ↔
    0 ≤ val ∧ (min (T.width : Int) (max 1 pad)).toNat ≤ digits := by
  rw [rejectText, List.append_eq_nil_iff, List.replicate_eq_nil_iff, signText]
  have hpos : (1 : Int) ≤ T.width := by cases T <;> decide
  split_ifs with h
  · exact iff_of_false (fun hn => hn.1.elim) fun hn => by omega
  · constructor
    · rintro ⟨_, hzero⟩
      omega
    · rintro ⟨_, hle⟩
      exact ⟨rfl, by omega⟩

/-- A rejection is clean exactly when nothing was written before it. -/
theorem rejectsCleanly_iff_nil (hv : T.Holds val) (hbase : base < 2 ∨ 16 < base) (hpos : 0 < base)
    (hn : T.width + 4 ≤ n) (hd : countDigits T base fuel (T.abs val) = some digits) :
    RejectsCleanly T val n base pad ↔ rejectText T val pad digits = [] := by
  constructor
  · intro h
    obtain ⟨buff', hcompose, hstart, _⟩ := composeDigits_rejected hv hbase pad
      (fun _ => none) digits
    have hresult : Composes T val (fun _ => none) n base pad _ := .of_count hn hpos hd
    rw [hcompose] at hresult
    cases (h fun _ => none).unique hresult
    cases hc : rejectText T val pad digits with
    | nil => rfl
    | cons c s =>
      rw [hc] at hstart
      cases hstart 0 c rfl
  · intro hnil buff
    obtain ⟨buff', hcompose, _, hrest⟩ := composeDigits_rejected hv hbase pad buff digits
    have hsame : buff' = buff := by
      funext j
      apply hrest
      rw [hnil]
      exact Nat.zero_le j
    rw [hsame] at hcompose
    have hresult : Composes T val buff n base pad _ := .of_count hn hpos hd
    rwa [hcompose] at hresult

theorem not_printsWritten (hv : T.Holds val) (hbase : base < 2 ∨ 16 < base) (hpos : 0 < base)
    (hd : countDigits T base fuel (T.abs val) = some digits) : ¬ PrintsWritten T val base pad := by
  intro h
  obtain ⟨buff', hcompose, hstart, hrest⟩ := composeDigits_rejected hv hbase pad
    (fun _ => none) digits
  have hresult : Composes T val (fun _ => none) (T.width + 4) base pad _ :=
    .of_count (Nat.le_refl _) hpos hd
  rw [hcompose] at hresult
  apply h false buff' hresult (rejectText T val pad digits).length
  · intro j hj
    exact ⟨_, hstart j _ (List.getElem?_eq_getElem hj),
      rejectText_ne T val pad digits _ (List.getElem_mem hj)⟩
  · exact hrest _ (Nat.le_refl _)

/-- In base 1 the loop for the size ends at once or never. -/
theorem countDigits_base_one (hv : T.Holds val) :
    (0 < T.abs val ∧ ∀ fuel, countDigits T 1 fuel (T.abs val) = none) ∨
      (T.abs val ≤ 0 ∧ countDigits T 1 1 (T.abs val) = some 0) := by
  rcases Int.lt_or_le 0 (T.abs val) with h | h
  · exact .inl ⟨h, countDigits_one hv.abs h⟩
  · exact .inr ⟨h, countDigits_of_nonpos h T 1 0⟩

theorem not_composes_of_none (hn : T.width + 4 ≤ n) (hpos : 0 < base)
    (hnone : ∀ fuel, countDigits T base fuel (T.abs val) = none) :
    ¬ Composes T val buff n base pad r := by
  rintro ⟨fuel, h⟩
  have hroom : ¬ n < T.sizeof * 8 + 4 := Nat.not_lt.2 hn
  rw [composeInteger, if_neg hroom, if_neg (Int.not_le.2 hpos), hnone] at h
  cases h

theorem pad_le_digits_iff {b : Nat} (hb : 1 < b) (hv : T.Holds val) (h0 : 0 ≤ val) :
    (min (T.width : Int) (max 1 pad)).toNat ≤ (b.digits (T.abs val).toNat).length ↔
      (b : Int) ^ ((min (T.width : Int) (max 1 pad)).toNat - 1) ≤ val := by
  have hwidth : (1 : Int) ≤ T.width := by cases T <;> decide
  obtain ⟨m, rfl⟩ := Int.eq_ofNat_of_zero_le h0
  rw [IntType.abs_of_nonneg hv h0, Int.toNat_natCast]
  have hle := Nat.lt_digits_length_iff (k := (min (T.width : Int) (max 1 pad)).toNat - 1) hb m
  constructor
  · intro h
    have hpow := hle.1 (by omega)
    exact_mod_cast hpow
  · intro h
    have hlt := hle.2 (by exact_mod_cast h)
    omega

theorem rejectsCleanly_iff (hv : T.Holds val) (hbase : base < 2 ∨ 16 < base) :
    RejectsCleanly T val n base pad ↔ RejectRoom T val n base pad := by
  by_cases hn : n < T.width + 4
  · refine iff_of_true (fun buff => ⟨0, ?_⟩) (.inl hn)
    exact if_pos hn
  by_cases hpos : 0 < base
  · have hroom : RejectRoom T val n base pad ↔ 16 < base ∧ 0 ≤ val ∧
        base ^ ((min (T.width : Int) (max 1 pad)).toNat - 1) ≤ val := by
      rw [RejectRoom, or_iff_right hn, or_iff_right (Int.not_le.2 hpos)]
    rw [hroom]
    rcases hbase with hone | hbig
    · have hb : base = 1 := by omega
      subst hb
      refine iff_of_false (fun h => ?_) fun h => by omega
      rcases countDigits_base_one hv with ⟨_, hnone⟩ | ⟨_, hzero⟩
      · exact not_composes_of_none (Nat.not_lt.1 hn) hpos hnone (h fun _ => none)
      · rw [rejectsCleanly_iff_nil hv (.inl hone) hpos (Nat.not_lt.1 hn) hzero,
          rejectText_eq_nil] at h
        have hwidth : (1 : Int) ≤ T.width := by cases T <;> decide
        omega
    · obtain ⟨b, rfl⟩ := Int.eq_ofNat_of_zero_le (Int.le_of_lt hpos)
      have hb : 1 < b := by omega
      rw [rejectsCleanly_iff_nil hv (.inr hbig) hpos (Nat.not_lt.1 hn) (countDigits_abs hb hv),
        rejectText_eq_nil, and_iff_right hbig]
      exact and_congr_right fun h0 => pad_le_digits_iff hb hv h0
  · refine iff_of_true (fun buff => ⟨0, ?_⟩) (.inr (.inl (Int.not_lt.1 hpos)))
    exact (if_neg hn).trans (if_pos (Int.not_lt.1 hpos))

theorem printsWritten_iff (hv : T.Holds val) (hbase : base < 2 ∨ 16 < base) :
    PrintsWritten T val base pad ↔ base = 1 ∧ 0 < T.abs val := by
  constructor
  · intro h
    by_cases hpos : 0 < base
    · rcases hbase with hone | hbig
      · have hb : base = 1 := by omega
        subst hb
        rcases countDigits_base_one hv with ⟨hlt, _⟩ | ⟨_, hzero⟩
        · exact ⟨rfl, hlt⟩
        · exact absurd h (not_printsWritten hv (.inl hone) hpos hzero)
      · obtain ⟨b, rfl⟩ := Int.eq_ofNat_of_zero_le (Int.le_of_lt hpos)
        exact absurd h (not_printsWritten hv (.inr hbig) hpos (countDigits_abs (by omega) hv))
    · have hreturn : Composes T val (fun _ => none) (T.width + 4) base pad
          (false, fun _ => none) := by
        refine ⟨0, ?_⟩
        exact (if_neg (Nat.lt_irrefl _)).trans (if_pos (Int.not_lt.1 hpos))
      exact absurd rfl (h _ _ hreturn 0 fun j hj => absurd hj (Nat.not_lt_zero j))
  · rintro ⟨rfl, hlt⟩ ok buff hcompose
    exact absurd hcompose
      (not_composes_of_none (Nat.le_refl _) (by decide) (countDigits_one hv.abs hlt))

/-- Unsupported bases are rejected cleanly exactly where nothing is written before the rejection;
`__fmt_arg` prints only what was written exactly where `compose` does not return at all. -/
theorem unsupported_rejected_iff (hv : T.Holds val) (hbase : base < 2 ∨ 16 < base) :
    (RejectsCleanly T val n base pad ↔ RejectRoom T val n base pad) ∧
      (PrintsWritten T val base pad ↔ base = 1 ∧ 0 < T.abs val) :=
  ⟨rejectsCleanly_iff hv hbase, printsWritten_iff hv hbase⟩

theorem unsupported_rejected_byte : RejectsCleanly .uint8_t 200 12 17 2 :=
  (unsupported_rejected_iff (by decide) (by decide)).1.2 (by unfold RejectRoom; decide)

/-- In base 17 a short value is padded before it is rejected, in base 1 no positive value is ever
rejected, and what is printed after a rejection was not written. -/
theorem not_unsupported_rejected :
    (∃ buff, Composes .uint8_t 5 (fun _ => none) 12 17 2 (false, buff) ∧ buff 0 = some (chr '0')) ∧
      ¬ RejectsCleanly .uint8_t 5 12 17 2 ∧ ¬ RejectsCleanly .uint8_t 5 12 1 0 ∧
      ¬ PrintsWritten .uint8_t 5 0 0 := by
  refine ⟨⟨_, ⟨2, rfl⟩, rfl⟩, ?_, ?_, ?_⟩
  · rw [rejectsCleanly_iff (by decide) (by decide)]
    unfold RejectRoom
    decide
  · rw [rejectsCleanly_iff (by decide) (by decide)]
    unfold RejectRoom
    decide
  · rw [printsWritten_iff (by decide) (by decide)]
    decide

end Tupai
