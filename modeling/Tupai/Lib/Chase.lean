import Mathlib.Order.Preorder.Finite

namespace Tupai.Lib
set_option autoImplicit true

/-- The pointer at the start of each round of a loop that follows `next` until it is `null`. -/
def chase [DecidableEq α] (next : α → α) (null start : α) : Nat → α
  | 0 => start
  | n + 1 => if chase next null start n = null then null else next (chase next null start n)

variable [DecidableEq α] {next : α → α} {null start : α}

theorem chase_next (h : chase next null start n ≠ null) :
    chase next null start (n + 1) = next (chase next null start n) := if_neg h

theorem chase_ended (h : chase next null start m = null) (hle : m ≤ n) :
    chase next null start n = null := by
  induction hle with
  | refl => exact h
  | step _ ih => exact if_pos ih

/-- After its first round the loop runs as if it had started from the next pointer. -/
theorem chase_tail (h : start ≠ null) (n : Nat) :
    chase next null start (n + 1) = chase next null (next start) n := by
  induction n with
  | zero => exact if_neg h
  | succ n ih => rw [chase, ih, chase]

theorem chase_repeats (h : chase next null start m = chase next null start n) (k : Nat) :
    chase next null start (m + k) = chase next null start (n + k) := by
  induction k with
  | zero => exact h
  | succ k ih => rw [← Nat.add_assoc, ← Nat.add_assoc, chase, chase, ih]

/-- A loop that comes back to a pointer never ends. -/
theorem chase_endless (hlt : m < n) (hne : chase next null start n ≠ null)
    (h : chase next null start m = chase next null start n) (k : Nat) :
    chase next null start (n + k) ≠ null := by
  induction k using Nat.strong_induction_on with
  | h k ih =>
    obtain hk | hk := Nat.lt_or_ge k (n - m)
    · rw [← chase_repeats h]
      intro hnull
      exact hne (chase_ended hnull (by omega))
    · have hback : n + k = n + (k - (n - m)) + (n - m) := by omega
      have hfar : m + k = n + (k - (n - m)) := by omega
      rw [← chase_repeats h, hfar]
      exact ih _ (by omega)

/-- Among finitely many pointers a loop ends exactly when it never comes back to one. -/
theorem chase_ends_iff {s : Set α} (hs : s.Finite) (hmem : ∀ n, chase next null start n ∈ s) :
    (∃ n, chase next null start n = null) ↔ ∀ m n, m < n → chase next null start n ≠ null →
      chase next null start m ≠ chase next null start n := by
  constructor
  · rintro ⟨k, hk⟩ m n hlt hne h
    exact chase_endless hlt hne h k (chase_ended hk (Nat.le_add_left k n))
  · intro hapart
    by_contra hends
    have hne (n : Nat) : chase next null start n ≠ null := fun h => hends ⟨n, h⟩
    obtain ⟨m, n, hlt, heq⟩ := hs.exists_lt_map_eq_of_forall_mem hmem
    exact hapart m n hlt (hne n) heq

theorem chase_lt [Preorder α] (h : ∀ n, chase next null start (n + 1) ≠ null →
      chase next null start n < chase next null start (n + 1))
    (hlt : m < n) (hne : chase next null start n ≠ null) :
    chase next null start m < chase next null start n := by
  induction hlt with
  | refl => exact h m hne
  | @step n _ ih =>
    have hn : chase next null start n ≠ null := fun hn => hne (if_pos hn)
    exact (ih hn).trans (h n hne)

end Tupai.Lib
