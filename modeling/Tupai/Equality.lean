import Tupai.Str

namespace Tupai
set_option autoImplicit true

/-- A byte that `str_equal` reads, by its string and its index. -/
inductive StrRead where
  | str0 (i : Nat)
  | str1 (i : Nat)
deriving DecidableEq

namespace StrRead

def succ : StrRead → StrRead
  | str0 i => str0 (i + 1)
  | str1 i => str1 (i + 1)

def byte (a b : Chars) : StrRead → Byte
  | str0 i => a.getD i 0#8
  | str1 i => b.getD i 0#8

/-- The byte belongs to its string, or is the NUL of it. -/
def Within (a b : Chars) : StrRead → Prop
  | str0 i => i ≤ (cstr a).length
  | str1 i => i ≤ (cstr b).length

end StrRead

/-- What the loop of `str_equal` reads from its `while` test on. The second string is looked at in
the test only where the first one has ended. -/
def strEqualFromReads : (str0 str1 : Chars) → List StrRead
  | [], str1 =>
    [.str0 0, .str1 0] ++ if str1.headD 0#8 = 0#8 then [] else [.str0 0, .str1 0]
  | c :: str0, str1 =>
    (if c = 0#8 then [.str0 0, .str1 0] else [.str0 0]) ++
      if c = 0#8 ∧ str1.headD 0#8 = 0#8 then []
      else [.str0 0, .str1 0] ++
        if c ≠ str1.headD 0#8 then [] else (strEqualFromReads str0 str1.tail).map StrRead.succ

def strEqualReads (str0 str1 : Chars) : List StrRead :=
  [.str0 0, .str1 0] ++
    if str0.headD 0#8 ≠ str1.headD 0#8 then []
    else (strEqualFromReads str0.tail str1.tail).map StrRead.succ

/-- The strings are compared, and nothing behind them is read or makes a difference. -/
structure DecidesEquality (str0 str1 : Chars) : Prop where
  exact : strEqual str0 str1 = true ↔ cstr str0 = cstr str1
  independent : ∀ rest0 rest1,
    strEqual (cstr str0 ++ 0#8 :: rest0) (cstr str1 ++ 0#8 :: rest1) = strEqual str0 str1
  within : ∀ r ∈ strEqualReads str0 str1, r.Within str0 str1

variable {a b a' b' : Chars} {r : StrRead}

theorem strEqualFrom_step (a b : Chars) : strEqualFrom a b =
    if a.headD 0#8 = 0#8 ∧ b.headD 0#8 = 0#8 then true
    else if a.headD 0#8 ≠ b.headD 0#8 then false else strEqualFrom a.tail b.tail := by
  cases a with
  | nil =>
    have hhead : ([] : Chars).headD 0#8 = 0#8 := rfl
    rw [strEqualFrom]
    by_cases hb : b.headD 0#8 = 0#8
    · rw [if_pos ⟨hhead, hb⟩]
      exact beq_iff_eq.2 hb
    · rw [if_neg fun h => hb h.2, if_pos (hhead.trans_ne (Ne.symm hb))]
      exact beq_eq_false_iff_ne.2 hb
  | cons c a => rfl

theorem strEqualFromReads_step (a b : Chars) : strEqualFromReads a b =
    (if a.headD 0#8 = 0#8 then [.str0 0, .str1 0] else [.str0 0]) ++
      if a.headD 0#8 = 0#8 ∧ b.headD 0#8 = 0#8 then []
      else [.str0 0, .str1 0] ++ if a.headD 0#8 ≠ b.headD 0#8 then []
        else (strEqualFromReads a.tail b.tail).map StrRead.succ := by
  cases a with
  | nil =>
    have hhead : ([] : Chars).headD 0#8 = 0#8 := rfl
    rw [strEqualFromReads, if_pos hhead]
    by_cases hb : b.headD 0#8 = 0#8
    · rw [if_pos hb, if_pos ⟨hhead, hb⟩]
    · rw [if_neg hb, if_neg fun h => hb h.2, if_pos (hhead.trans_ne (Ne.symm hb))]
      rfl
  | cons c a => rfl

theorem byte_str0 (a b : Chars) : (StrRead.str0 0).byte a b = a.headD 0#8 := by
  cases a <;> rfl

theorem byte_str1 (a b : Chars) : (StrRead.str1 0).byte a b = b.headD 0#8 := by
  cases b <;> rfl

theorem byte_succ (r : StrRead) (a b : Chars) : r.succ.byte a b = r.byte a.tail b.tail := by
  cases r with
  | str0 i => cases a <;> rfl
  | str1 i => cases b <;> rfl

theorem cstr_head (h : a.headD 0#8 ≠ 0#8) : cstr a = a.headD 0#8 :: cstr a.tail := by
  cases a with
  | nil => exact absurd rfl h
  | cons c a => exact (cstr_cons c a).trans (if_neg h)

theorem cstr_eq_nil_iff : cstr a = [] ↔ a.headD 0#8 = 0#8 := by
  constructor
  · intro hnil
    by_contra hhead
    rw [cstr_head hhead] at hnil
    cases hnil
  · intro hhead
    cases a with
    | nil => rfl
    | cons c a => exact (cstr_cons c a).trans (if_pos hhead)

theorem StrRead.Within.succ (ha : a.headD 0#8 ≠ 0#8) (hb : b.headD 0#8 ≠ 0#8)
    (h : r.Within a.tail b.tail) : r.succ.Within a b := by
  cases r with
  | str0 i =>
    rw [StrRead.succ, StrRead.Within, cstr_head ha]
    exact Nat.succ_le_succ h
  | str1 i =>
    rw [StrRead.succ, StrRead.Within, cstr_head hb]
    exact Nat.succ_le_succ h

/-- A string, up to its NUL, is the same in every buffer that holds it. -/
theorem getD_cstr (h : i ≤ (cstr a).length) (rest : Chars) :
    (cstr a ++ 0#8 :: rest).getD i 0#8 = a.getD i 0#8 := by
  induction a generalizing i with
  | nil =>
    obtain rfl : i = 0 := Nat.le_zero.1 h
    rfl
  | cons c a ih =>
    rw [cstr_cons] at h ⊢
    split_ifs at h ⊢ with hc
    · obtain rfl : i = 0 := Nat.le_zero.1 h
      exact hc.symm
    · cases i with
      | zero => rfl
      | succ i => exact ih (Nat.le_of_succ_le_succ h)

theorem StrRead.Within.byte_eq (h : r.Within a b) (rest0 rest1 : Chars) :
    r.byte (cstr a ++ 0#8 :: rest0) (cstr b ++ 0#8 :: rest1) = r.byte a b := by
  cases r with
  | str0 i => exact getD_cstr h rest0
  | str1 i => exact getD_cstr h rest1

/-- Each round looks at both bytes, be it in the test or in the comparison. -/
theorem mem_strEqualFromReads (a b : Chars) :
    .str0 0 ∈ strEqualFromReads a b ∧ .str1 0 ∈ strEqualFromReads a b := by
  rw [strEqualFromReads_step]
  by_cases ha : a.headD 0#8 = 0#8
  · rw [if_pos ha]
    exact ⟨by simp, by simp⟩
  · rw [if_neg ha, if_neg fun h => ha h.1]
    exact ⟨by simp, by simp⟩

theorem mem_strEqualFromReads_succ (hends : ¬ (a.headD 0#8 = 0#8 ∧ b.headD 0#8 = 0#8))
    (hsame : ¬ a.headD 0#8 ≠ b.headD 0#8) (hr : r ∈ strEqualFromReads a.tail b.tail) :
    r.succ ∈ strEqualFromReads a b := by
  rw [strEqualFromReads_step, if_neg hends, if_neg hsame]
  exact List.mem_append_right _ (List.mem_append_right _ (List.mem_map_of_mem hr))

theorem heads_eq (h : ∀ r ∈ strEqualFromReads a b, r.byte a' b' = r.byte a b) :
    a'.headD 0#8 = a.headD 0#8 ∧ b'.headD 0#8 = b.headD 0#8 := by
  obtain ⟨h0, h1⟩ := mem_strEqualFromReads a b
  have hbyte0 := h _ h0
  have hbyte1 := h _ h1
  rw [byte_str0, byte_str0] at hbyte0
  rw [byte_str1, byte_str1] at hbyte1
  exact ⟨hbyte0, hbyte1⟩

/-- The result depends on the bytes that are read only. -/
theorem strEqualFrom_congr (h : ∀ r ∈ strEqualFromReads a b, r.byte a' b' = r.byte a b) :
    strEqualFrom a' b' = strEqualFrom a b := by
  induction a generalizing b a' b' with
  | nil =>
    obtain ⟨ha, hb⟩ := heads_eq h
    rw [strEqualFrom_step a', strEqualFrom_step [], ha, hb]
    split_ifs with hends hsame
    · rfl
    · rfl
    · rw [not_not] at hsame
      exact absurd ⟨rfl, hsame.symm⟩ hends
  | cons c a ih =>
    obtain ⟨ha, hb⟩ := heads_eq h
    rw [strEqualFrom_step a', strEqualFrom_step (c :: a), ha, hb]
    split_ifs with hends hsame
    · rfl
    · rfl
    · refine ih fun r hr => ?_
      have hbyte := h r.succ (mem_strEqualFromReads_succ hends hsame hr)
      rwa [byte_succ, byte_succ] at hbyte

theorem strEqual_congr (h : ∀ r ∈ strEqualReads a b, r.byte a' b' = r.byte a b) :
    strEqual a' b' = strEqual a b := by
  rw [strEqualReads, List.forall_mem_append, List.forall_mem_cons, List.forall_mem_singleton] at h
  obtain ⟨⟨ha, hb⟩, hrest⟩ := h
  rw [byte_str0, byte_str0] at ha
  rw [byte_str1, byte_str1] at hb
  rw [strEqual, strEqual, ha, hb]
  split_ifs at hrest ⊢ with hsame
  · rfl
  · refine strEqualFrom_congr fun r hr => ?_
    have hbyte := hrest r.succ (List.mem_map_of_mem hr)
    rwa [byte_succ, byte_succ] at hbyte

/-- The loop stops at the first NUL of either string. -/
theorem strEqualFromReads_within (a b : Chars) : ∀ r ∈ strEqualFromReads a b, r.Within a b := by
  have hfirst (a b : Chars) : ∀ r ∈ [StrRead.str0 0, .str1 0], r.Within a b := by
    rw [List.forall_mem_cons, List.forall_mem_singleton]
    exact ⟨Nat.zero_le _, Nat.zero_le _⟩
  induction a generalizing b with
  | nil =>
    rw [strEqualFromReads, List.forall_mem_append]
    refine ⟨hfirst [] b, ?_⟩
    split_ifs with hb
    · exact List.forall_mem_nil _
    · exact hfirst [] b
  | cons c a ih =>
    rw [strEqualFromReads, List.forall_mem_append]
    constructor
    · split_ifs with hc
      · exact hfirst (c :: a) b
      · exact List.forall_mem_singleton.2 (Nat.zero_le _)
    · split_ifs with hends hsame
      · exact List.forall_mem_nil _
      · rw [List.append_nil]
        exact hfirst (c :: a) b
      · rw [List.forall_mem_append, List.forall_mem_map]
        refine ⟨hfirst (c :: a) b, fun r hr => ?_⟩
        rw [not_not] at hsame
        have hc : c ≠ 0#8 := fun hc => hends ⟨hc, hsame.symm.trans hc⟩
        exact StrRead.Within.succ hc (hsame ▸ hc) (ih b.tail r hr)

theorem strEqualReads_within (hne : ¬ (cstr a = [] ∧ cstr b = [])) :
    ∀ r ∈ strEqualReads a b, r.Within a b := by
  rw [strEqualReads, List.forall_mem_append, List.forall_mem_cons, List.forall_mem_singleton]
  refine ⟨⟨Nat.zero_le _, Nat.zero_le _⟩, ?_⟩
  split_ifs with hsame
  · exact List.forall_mem_nil _
  · rw [not_not] at hsame
    rw [cstr_eq_nil_iff, cstr_eq_nil_iff, ← hsame, and_self_iff] at hne
    rw [List.forall_mem_map]
    exact fun r hr => StrRead.Within.succ hne (hsame ▸ hne) (strEqualFromReads_within _ _ r hr)

/-- Of two empty strings, the bytes behind the NULs are read. -/
theorem not_strEqualReads_within (ha : cstr a = []) (hb : cstr b = []) :
    ¬ ∀ r ∈ strEqualReads a b, r.Within a b := by
  intro h
  have hsame : a.headD 0#8 = b.headD 0#8 :=
    (cstr_eq_nil_iff.1 ha).trans (cstr_eq_nil_iff.1 hb).symm
  have hread : StrRead.str0 1 ∈ strEqualReads a b := by
    rw [strEqualReads, if_neg (not_not.2 hsame)]
    exact List.mem_append_right _ (List.mem_map_of_mem (mem_strEqualFromReads _ _).1)
  have hle : 1 ≤ (cstr a).length := h _ hread
  rw [ha] at hle
  exact absurd hle (by decide)

/-- `str_equal` decides whether two strings are equal, unless both are empty. -/
theorem decidesEquality_iff (str0 str1 : Chars) :
    DecidesEquality str0 str1 ↔ ¬ (cstr str0 = [] ∧ cstr str1 = []) := by
  constructor
  · rintro h ⟨h0, h1⟩
    exact not_strEqualReads_within h0 h1 h.within
  · intro hne
    have hwithin := strEqualReads_within hne
    refine ⟨?_, fun rest0 rest1 => ?_, hwithin⟩
    · rcases not_and_or.1 hne with h0 | h1
      · exact strEqual_iff h0
      · exact strEqual_iff_right h1
    · exact strEqual_congr fun r hr => (hwithin r hr).byte_eq rest0 rest1

/-- Two empty strings, of which the next bytes differ, are told apart. -/
theorem not_decidesEquality : ¬ ∀ str0 str1, DecidesEquality str0 str1 := by
  intro h
  have hexact := (h [0#8, 0x61#8] [0#8, 0x62#8]).exact
  exact absurd hexact (by decide)

end Tupai
