import Mathlib.Data.List.TakeWhile
import Tupai.Basic

namespace Tupai
set_option autoImplicit true

/-- The bytes from a `char*` on. Past the end of the list every byte reads as NUL. -/
abbrev Chars := List Byte

/-- The string that a buffer holds: its bytes before the first NUL. -/
def cstr (s : Chars) : Chars := s.takeWhile (· != 0#8)

theorem cstr_cons (c : Byte) (s : Chars) : cstr (c :: s) = if c = 0#8 then [] else c :: cstr s := by
  rw [cstr, List.takeWhile_cons]
  by_cases hc : c = 0#8 <;> simp [hc, cstr]

/-- The buffer `dest` after a string and its NUL were written at its start. -/
def putStr (s dest : Chars) : Chars := s ++ 0#8 :: dest.drop (s.length + 1)

theorem putStr_cons (c : Byte) (s dest : Chars) :
    putStr (c :: s) dest = c :: putStr s dest.tail := by
  rw [putStr, putStr, List.length_cons, List.cons_append, List.drop_tail]

theorem cstr_ne_zero (s : Chars) : ∀ c ∈ cstr s, c ≠ 0#8 := by
  intro c hc
  simpa using List.mem_takeWhile_imp hc

theorem cstr_eq_self (h : ∀ c ∈ s, c ≠ 0#8) : cstr s = s :=
  List.takeWhile_eq_self_iff.2 fun c hc => bne_iff_ne.2 (h c hc)

theorem cstr_append_zero (h : ∀ c ∈ s, c ≠ 0#8) (t : Chars) : cstr (s ++ 0#8 :: t) = s := by
  rw [cstr, List.takeWhile_append_of_pos (by simpa using h), List.takeWhile_cons_of_neg (by simp),
    List.append_nil]

@[simp] theorem cstr_putStr (h : ∀ c ∈ s, c ≠ 0#8) (dest : Chars) : cstr (putStr s dest) = s :=
  cstr_append_zero h _

def strCpyN : (src dest : Chars) → (n : Nat) → Chars
  | c :: src, dest, n + 2 =>
    if c ≠ 0#8 then c :: strCpyN src dest.tail (n + 1) else 0#8 :: dest.tail
  | _, dest, _ => 0#8 :: dest.tail

theorem strCpyN_eq (src dest : Chars) (n : Nat) :
    strCpyN src dest n = putStr ((cstr src).take (n - 1)) dest := by
  induction src, dest, n using strCpyN.induct with
  | case1 c src dest n hc ih =>
    rw [strCpyN, if_pos hc, ih, cstr_cons, if_neg hc]
    exact (putStr_cons ..).symm
  | case2 c src dest n hc =>
    rw [strCpyN, if_neg hc, cstr_cons, if_pos (not_not.1 hc), List.take_nil, putStr]
    simp
  | case3 src n dest hn =>
    have hs : (cstr src).take (n - 1) = [] := by
      cases src with
      | nil => simp [cstr]
      | cons c src =>
        match n with
        | 0 | 1 => exact List.take_zero
        | n + 2 => exact absurd rfl (hn c src n rfl)
    rw [hs, putStr, strCpyN]
    · simp
    · exact hn

theorem cstr_strCpyN (src dest : Chars) (n : Nat) :
    cstr (strCpyN src dest n) = (cstr src).take (n - 1) := by
  rw [strCpyN_eq, cstr_putStr]
  exact fun c hc => cstr_ne_zero src c (List.mem_of_mem_take hc)

/-- The comparison loop of `str_equal` from its `while` test on. -/
def strEqualFrom : (str0 str1 : Chars) → Bool
  | [], str1 => str1.headD 0#8 == 0#8
  | c :: str0, str1 =>
    if c = 0#8 ∧ str1.headD 0#8 = 0#8 then true
    else if c ≠ str1.headD 0#8 then false
    else strEqualFrom str0 str1.tail

def strEqual (str0 str1 : Chars) : Bool :=
  if str0.headD 0#8 ≠ str1.headD 0#8 then false else strEqualFrom str0.tail str1.tail

theorem strEqualFrom_iff (a b : Chars) : strEqualFrom a b = true ↔ cstr a = cstr b := by
  induction a generalizing b with
  | nil =>
    cases b with
    | nil => simp [strEqualFrom]
    | cons d b => by_cases hd : d = 0#8 <;> simp [strEqualFrom, hd, cstr]
  | cons c a ih =>
    rw [strEqualFrom, cstr_cons]
    cases b with
    | nil => by_cases hc : c = 0#8 <;> simp [hc, cstr]
    | cons d b =>
      rw [cstr_cons]
      by_cases hc : c = 0#8
      · by_cases hd : d = 0#8
        · simp [hc, hd]
        · simp [hc, hd, Ne.symm hd]
      · by_cases hcd : c = d
        · subst d
          simp [hc, ih]
        · by_cases hd : d = 0#8 <;> simp [hc, hcd, hd]

/-- `str_equal` compares strings, except that it looks past the NUL of two empty ones. -/
theorem strEqual_iff (hne : cstr a ≠ []) : strEqual a b = true ↔ cstr a = cstr b := by
  cases a with
  | nil => exact absurd rfl hne
  | cons c a =>
    have hc : c ≠ 0#8 := fun he => hne (by rw [cstr_cons, if_pos he])
    cases b with
    | nil => simp [strEqual, hc, cstr]
    | cons d b =>
      rw [strEqual, cstr_cons, if_neg hc, cstr_cons]
      by_cases hcd : c = d
      · subst d
        simp [hc, strEqualFrom_iff]
      · by_cases hd : d = 0#8 <;> simp [hcd, hd, hc]

theorem strEqual_iff_right (hne : cstr b ≠ []) : strEqual a b = true ↔ cstr a = cstr b := by
  by_cases ha : cstr a = []
  · have hb : b.headD 0#8 ≠ 0#8 := by
      cases b with
      | nil => exact absurd rfl hne
      | cons d b => exact fun hd : d = 0#8 => hne (by rw [cstr_cons, if_pos hd])
    have ha' : a.headD 0#8 = 0#8 := by
      cases a with
      | nil => rfl
      | cons c a =>
        by_contra hc
        change c ≠ 0#8 at hc
        rw [cstr_cons, if_neg hc] at ha
        cases ha
    rw [strEqual, ha', if_pos (Ne.symm hb), ha]
    exact iff_of_false Bool.false_ne_true (Ne.symm hne)
  · exact strEqual_iff ha

end Tupai
