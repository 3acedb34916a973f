import Mathlib.Data.List.Basic

namespace Tupai.Lib
set_option autoImplicit true

/-- Where a list of labels leads to in a graph whose edges are a partial function. -/
def follow (next : σ → α → Option σ) (s : σ) (labels : List α) : Option σ := labels.foldlM next s

variable {next next' : σ → α → Option σ}

theorem follow_cons (next : σ → α → Option σ) (s : σ) (a : α) (labels : List α) :
    follow next s (a :: labels) = (next s a).bind fun t => follow next t labels := rfl

theorem follow_snoc (next : σ → α → Option σ) (s : σ) (labels : List α) (a : α) :
    follow next s (labels ++ [a]) = (follow next s labels).bind fun t => next t a := by
  rw [follow, List.foldlM_append]
  exact congrArg (follow next s labels).bind (funext fun t => bind_pure (next t a))

theorem follow_mono (h : ∀ s a t, next s a = some t → next' s a = some t)
    (hf : follow next s labels = some t) : follow next' s labels = some t := by
  induction labels generalizing s with
  | nil => exact hf
  | cons a labels ih =>
    rw [follow_cons] at hf ⊢
    obtain ⟨s', hs, hrest⟩ := Option.bind_eq_some_iff.1 hf
    rw [h s a s' hs]
    exact ih hrest

/-- A walk through nothing but loops goes nowhere. -/
theorem follow_loops (h : ∀ a ∈ labels, next s a = some s) : follow next s labels = some s := by
  induction labels with
  | nil => rfl
  | cons a labels ih =>
    obtain ⟨ha, hrest⟩ := List.forall_mem_cons.1 h
    rw [follow_cons, ha]
    exact ih hrest

end Tupai.Lib
