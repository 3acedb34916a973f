import Mathlib.Tactic.Common

namespace Tupai.Lib
set_option autoImplicit true

/-- The names are in bijection with the held objects. -/
structure Linkage (name : α → Option β) (obj : β → Prop) : Prop where
  inj : ∀ a a' b, name a = some b → name a' = some b → a = a'
  held : ∀ a b, name a = some b → obj b
  onto : ∀ b, obj b → ∃ a, name a = some b

variable {name name' : α → Option β} {obj obj' : β → Prop}

theorem Linkage.empty (hn : ∀ a, name a = none) (hh : ∀ b, ¬ obj b) : Linkage name obj where
  inj := by
    intro a a' b ha _
    rw [hn] at ha
    cases ha
  held := by
    intro a b ha
    rw [hn] at ha
    cases ha
  onto := fun b hb => absurd hb (hh b)

theorem Linkage.congr (h : Linkage name obj) (hn : ∀ a, name' a = name a)
    (hh : ∀ b, obj' b ↔ obj b) : Linkage name' obj' where
  inj := by
    intro a a' b ha ha'
    rw [hn] at ha ha'
    exact h.inj a a' b ha ha'
  held := by
    intro a b ha
    rw [hn] at ha
    exact (hh b).2 (h.held a b ha)
  onto := by
    intro b hb
    obtain ⟨a, ha⟩ := h.onto b ((hh b).1 hb)
    exact ⟨a, (hn a).trans ha⟩

theorem Linkage.insert [DecidableEq α] (h : Linkage name obj) (a₀ : α) (hnew : name a₀ = none)
    (hfresh : ¬ obj b₀)
    (hn : ∀ a, name' a = if a = a₀ then some b₀ else name a)
    (hh : ∀ b, obj' b ↔ b = b₀ ∨ obj b) : Linkage name' obj' where
  inj := by
    intro a a' b ha ha'
    rw [hn] at ha ha'
    split_ifs at ha ha' with he he'
    · rw [he, he']
    · cases ha
      exact absurd (h.held a' b₀ ha') hfresh
    · cases ha'
      exact absurd (h.held a b₀ ha) hfresh
    · exact h.inj a a' b ha ha'
  held := by
    intro a b ha
    rw [hn] at ha
    split_ifs at ha
    · cases ha
      exact (hh b₀).2 (.inl rfl)
    · exact (hh b).2 (.inr (h.held a b ha))
  onto := by
    intro b hb
    rcases (hh b).1 hb with rfl | hb
    · exact ⟨a₀, (hn a₀).trans (if_pos rfl)⟩
    · obtain ⟨a, ha⟩ := h.onto b hb
      refine ⟨a, (hn a).trans ?_⟩
      rw [if_neg, ha]
      rintro rfl
      rw [hnew] at ha
      cases ha

theorem Linkage.erase [DecidableEq α] (h : Linkage name obj) (ha₀ : name a₀ = some b₀)
    (hn : ∀ a, name' a = if a = a₀ then none else name a)
    (hh : ∀ b, obj' b ↔ b ≠ b₀ ∧ obj b) : Linkage name' obj' where
  inj := by
    intro a a' b ha ha'
    rw [hn] at ha ha'
    split_ifs at ha ha'
    exact h.inj a a' b ha ha'
  held := by
    intro a b ha
    rw [hn] at ha
    split_ifs at ha with he
    refine (hh b).2 ⟨?_, h.held a b ha⟩
    rintro rfl
    exact he (h.inj a a₀ b ha ha₀)
  onto := by
    intro b hb
    obtain ⟨hne, hb⟩ := (hh b).1 hb
    obtain ⟨a, ha⟩ := h.onto b hb
    refine ⟨a, (hn a).trans ?_⟩
    rw [if_neg, ha]
    rintro rfl
    rw [ha₀] at ha
    cases ha
    exact hne rfl

/-- Two lookups, each the converse of the other. -/
def Converse (find : α → Option β) (find' : β → Option α) : Prop :=
  ∀ a b, find a = some b ↔ find' b = some a

variable {find find₁ : α → Option β} {find' find₁' : β → Option α}

theorem Converse.inj (h : Converse find find') (ha : find a = some b) (ha' : find a' = some b) :
    a = a' :=
  Option.some.inj (((h a b).1 ha).symm.trans ((h a' b).1 ha'))

theorem Converse.empty (hf : ∀ a, find a = none) (hf' : ∀ b, find' b = none) :
    Converse find find' := by
  intro a b
  rw [hf, hf']
  exact iff_of_false (fun h => by cases h) fun h => by cases h

theorem Converse.congr (h : Converse find find') (hf : ∀ a, find₁ a = find a)
    (hf' : ∀ b, find₁' b = find' b) : Converse find₁ find₁' := by
  intro a b
  rw [hf, hf']
  exact h a b

theorem Converse.insert [DecidableEq α] [DecidableEq β] (h : Converse find find') (a₀ : α) (b₀ : β)
    (hnew : find a₀ = none) (hnew' : find' b₀ = none)
    (hf : ∀ a, find₁ a = if a = a₀ then some b₀ else find a)
    (hf' : ∀ b, find₁' b = if b = b₀ then some a₀ else find' b) : Converse find₁ find₁' := by
  intro a b
  rw [hf, hf']
  split_ifs with ha hb hb
  · rw [ha, hb]
    exact iff_of_true rfl rfl
  · rw [ha, Option.some_inj, ← h, hnew]
    exact iff_of_false (fun he => hb he.symm) fun he => by cases he
  · rw [hb, h, hnew', Option.some_inj]
    exact iff_of_false (fun he => by cases he) fun he => ha he.symm
  · exact h a b

theorem Converse.erase [DecidableEq α] [DecidableEq β] (h : Converse find find')
    (hpair : find a₀ = some b₀)
    (hf : ∀ a, find₁ a = if a = a₀ then none else find a)
    (hf' : ∀ b, find₁' b = if b = b₀ then none else find' b) : Converse find₁ find₁' := by
  intro a b
  rw [hf, hf']
  split_ifs with ha hb hb
  · rfl
  · rw [ha, ← h, hpair, Option.some_inj]
    exact iff_of_false (fun he => by cases he) fun he => hb he.symm
  · rw [hb]
    exact iff_of_false (fun he => ha (h.inj he hpair)) fun he => by cases he
  · exact h a b

end Tupai.Lib
