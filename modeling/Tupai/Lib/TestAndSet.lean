import Mathlib.Tactic.Common

namespace Tupai.Lib
set_option autoImplicit true

/-- The word of a test-and-set lock, and who holds the lock. -/
inductive Guards : (word : Nat) → (holds : ι → Prop) → Prop where
  | free : (∀ t, ¬ holds t) → Guards 0 holds
  | taken : (∀ t, holds t ↔ t = owner) → Guards 1 holds

variable {holds holds' : ι → Prop}

theorem Guards.exclusive (h : Guards word holds) (ht : holds t) (ht' : holds t') : t = t' := by
  cases h with
  | free hnone => exact absurd ht (hnone t)
  | taken howner => rw [(howner t).1 ht, (howner t').1 ht']

theorem Guards.word_eq (h : Guards word holds) (ht : holds t) : word = 1 := by
  cases h with
  | free hnone => exact absurd ht (hnone t)
  | taken => rfl

theorem Guards.none (h : Guards word holds) (hw : word = 0) (t : ι) : ¬ holds t := by
  cases h with
  | free hnone => exact hnone t
  | taken => cases hw

theorem Guards.owner (h : Guards word holds) (hw : word ≠ 0) : ∃ t, holds t := by
  cases h with
  | free => exact absurd rfl hw
  | @taken _ owner howner => exact ⟨owner, (howner owner).2 rfl⟩

/-- What a step does to the word, and to whether the one that takes it holds the lock. -/
inductive LockStep : (word : Nat) → (held : Prop) → (word' : Nat) → (held' : Prop) → Prop where
  | take : held' → LockStep 0 held 1 held'
  | wait : word ≠ 0 → (held' ↔ held) → LockStep word held 1 held'
  | release : held → ¬ held' → LockStep word held 0 held'
  | keep : (held' ↔ held) → LockStep word held word held'

theorem Guards.congr (h : Guards word holds) (hkeep : ∀ t, holds' t ↔ holds t) :
    Guards word holds' := by
  cases h with
  | free hnone => exact .free fun t ht => hnone t ((hkeep t).1 ht)
  | taken howner => exact .taken fun t => (hkeep t).trans (howner t)

/-- The step rule: one step of one of them keeps the lock exclusive. -/
theorem Guards.step (h : Guards word holds) (hs : LockStep word (holds t) word' (holds' t))
    (hkeep : ∀ t', t' ≠ t → (holds' t' ↔ holds t')) : Guards word' holds' := by
  have hall (he : holds' t ↔ holds t) (t' : ι) : holds' t' ↔ holds t' := by
    by_cases ht : t' = t
    · rw [ht, he]
    · exact hkeep t' ht
  cases hs with
  | take ht =>
    have howner (t' : ι) : holds' t' ↔ t' = t := by
      refine ⟨fun h' => ?_, fun he => he ▸ ht⟩
      by_contra hne
      exact h.none rfl t' ((hkeep t' hne).1 h')
    exact .taken howner
  | wait hw he =>
    obtain ⟨owner, howner⟩ := h.owner hw
    rw [← h.word_eq howner]
    exact h.congr (hall he)
  | release ht ht' =>
    refine .free fun t' h' => ?_
    by_cases he : t' = t
    · exact ht' (he ▸ h')
    · exact he (h.exclusive ((hkeep t' he).1 h') ht)
  | keep he => exact h.congr (hall he)

end Tupai.Lib
