import Mathlib.Data.Finset.Card
import Mathlib.Data.List.Infix

namespace Tupai.Lib
set_option autoImplicit true

/-- A tree, given by the nodes at its paths. -/
abbrev PathTree (α : Type u) (β : Type v) := List α → Option β

namespace PathTree

variable {P Q : β → Prop} {t t' : PathTree α β}

/-- Every node but the root has a parent. -/
def Closed (t : PathTree α β) : Prop := ∀ p x, t (p ++ [x]) ≠ none → t p ≠ none

theorem Closed.of_prefix (h : t.Closed) (hq : t q ≠ none) (hp : p <+: q) : t p ≠ none := by
  obtain ⟨s, rfl⟩ := hp
  induction s using List.reverseRecOn with
  | nil => rwa [List.append_nil] at hq
  | append_singleton s x ih =>
    apply ih
    apply h _ x
    rwa [List.append_assoc]

/-- Making the missing nodes on the way to a path: `Q` is what holds of a node made at its end and
`P` of one made before it. -/
structure Grown (P Q : β → Prop) (path : List α) (t t' : PathTree α β) : Prop where
  kept : ∀ p n, t p = some n → t' p = some n
  domain : ∀ p, t' p ≠ none ↔ t p ≠ none ∨ p <+: path
  leaf : ∀ n, t path = none → t' path = some n → Q n
  inner : ∀ p n, p ≠ path → t p = none → t' p = some n → P n

theorem Grown.refl (h : t.Closed) (hp : t path ≠ none) : Grown P Q path t t where
  kept := fun _ _ hn => hn
  domain := fun p => ⟨.inl, fun hd => hd.elim id fun hpre => h.of_prefix hp hpre⟩
  leaf := fun n hn => absurd hn hp
  inner := by
    intro p n _ hn hs
    rw [hn] at hs
    cases hs

/-- The tree that a list of paths makes, each with what holds of the node at its end. -/
structure Populated (P : β → Prop) (done : List (List α × (β → Prop))) (t : PathTree α β) :
    Prop where
  domain : ∀ p, t p ≠ none ↔ p = [] ∨ ∃ d ∈ done, p <+: d.1
  leaf : ∀ d ∈ done, ∃ n, t d.1 = some n ∧ d.2 n
  inner : ∀ p n, t p = some n → (∀ d ∈ done, p ≠ d.1) → P n

/-- One path more. Only at an inner node may another path have come before. -/
theorem Populated.grow (h : Populated P done t) (hg : Grown P Q path t t')
    (hne : path ≠ []) (hnew : ∀ d ∈ done, path ≠ d.1)
    (hover : ∀ d ∈ done, path <+: d.1 → ∀ n, P n → Q n) :
    Populated P ((path, Q) :: done) t' where
  domain := by
    intro p
    rw [hg.domain, h.domain]
    simp only [List.mem_cons, exists_eq_or_imp]
    rw [or_assoc, or_comm (a := ∃ d ∈ done, _)]
  leaf := by
    rintro d (_ | ⟨_, hd⟩)
    · cases ht : t path with
      | none =>
        obtain ⟨n, hn⟩ :=
          Option.ne_none_iff_exists'.1 ((hg.domain path).2 (.inr (List.prefix_refl _)))
        exact ⟨n, hn, hg.leaf n ht hn⟩
      | some n =>
        have hdom := (h.domain path).1 (by rw [ht]; exact Option.some_ne_none n)
        obtain ⟨d, hd, hpre⟩ := hdom.resolve_left hne
        exact ⟨n, hg.kept path n ht, hover d hd hpre n (h.inner path n ht hnew)⟩
    · obtain ⟨n, hn, hl⟩ := h.leaf d hd
      exact ⟨n, hg.kept _ n hn, hl⟩
  inner := by
    intro p n hn hp
    obtain ⟨hpath, hdone⟩ := List.forall_mem_cons.1 hp
    cases ht : t p with
    | none => exact hg.inner p n hpath ht hn
    | some m =>
      have hm := hg.kept p m ht
      rw [hn] at hm
      cases hm
      exact h.inner p n ht hdone

section Set

variable [DecidableEq α]

def set (t : PathTree α β) (p : List α) (n : β) : PathTree α β := Function.update t p (some n)

@[simp] theorem set_self (t : PathTree α β) (p : List α) (n : β) : t.set p n p = some n :=
  Function.update_self ..

theorem set_of_ne (t : PathTree α β) (n : β) (h : q ≠ p) : t.set p n q = t q :=
  Function.update_of_ne h ..

theorem set_eq_none_iff : t.set p n q = none ↔ q ≠ p ∧ t q = none := by
  by_cases h : q = p
  · simp [h]
  · rw [set_of_ne t n h, and_iff_right h]

theorem set_inj {f : β → ι}
    (h : ∀ p q n m, t p = some n → t q = some m → f n = f m → p = q)
    (hfresh : ∀ q n, t q = some n → f n ≠ f m) :
    ∀ q q' n n', t.set p m q = some n → t.set p m q' = some n' → f n = f n' → q = q' := by
  intro q q' n n' hq hq' he
  by_cases hp : q = p
  · subst hp
    by_cases hp' : q' = q
    · exact hp'.symm
    · rw [set_of_ne t m hp'] at hq'
      rw [set_self] at hq
      cases hq
      exact absurd he.symm (hfresh q' n' hq')
  · rw [set_of_ne t m hp] at hq
    by_cases hp' : q' = p
    · subst hp'
      rw [set_self] at hq'
      cases hq'
      exact absurd he (hfresh q n hq)
    · rw [set_of_ne t m hp'] at hq'
      exact h q q' n n' hq hq' he

theorem Closed.set (h : t.Closed) (hp : t p ≠ none) (x : α) (n : β) :
    (t.set (p ++ [x]) n).Closed := by
  intro q y hq
  rw [ne_eq, set_eq_none_iff] at hq ⊢
  by_cases he : q ++ [y] = p ++ [x]
  · rw [(List.append_singleton_inj.1 he).1]
    exact fun hn => hp hn.2
  · exact fun hn => h q y (fun hy => hq ⟨he, hy⟩) hn.2

theorem Grown.set (hg : Grown P Q path (t.set q n) t') (hq : q <+: path)
    (hnew : t q = none) (hleaf : q = path → Q n) (hinner : q ≠ path → P n) :
    Grown P Q path t t' where
  kept := by
    intro p m hm
    apply hg.kept
    rwa [set_of_ne]
    rintro rfl
    rw [hnew] at hm
    cases hm
  domain := by
    intro p
    rw [hg.domain, ne_eq, set_eq_none_iff, not_and_or, not_not, or_assoc]
    exact or_iff_right_of_imp fun he => .inr (he ▸ hq)
  leaf := by
    intro m hm hs
    by_cases he : q = path
    · subst he
      have hk := hg.kept q n (set_self t q n)
      rw [hs] at hk
      cases hk
      exact hleaf rfl
    · exact hg.leaf m (by rwa [set_of_ne t n (Ne.symm he)]) hs
  inner := by
    intro p m hp hm hs
    by_cases he : p = q
    · subst he
      have hk := hg.kept p n (set_self t p n)
      rw [hs] at hk
      cases hk
      exact hinner hp
    · exact hg.inner p m hp (by rwa [set_of_ne t n he]) hs

/-- How many of some paths have no node. -/
def missing (S : Finset (List α)) (t : PathTree α β) : Nat := {p ∈ S | (t p).isNone}.card

theorem missing_set (hq : q ∈ S) (hnew : t q = none) (n : β) :
    (t.set q n).missing S + 1 = t.missing S := by
  have he : {p ∈ S | (t.set q n p).isNone} = {p ∈ S | (t p).isNone}.erase q := by
    ext p
    simp only [Finset.mem_filter, Finset.mem_erase, Option.isNone_iff_eq_none, set_eq_none_iff]
    exact and_left_comm
  have hmem : q ∈ {p ∈ S | (t p).isNone} := by simp [hq, hnew]
  rw [missing, he]
  exact Finset.card_erase_add_one hmem

omit [DecidableEq α] in
/-- The paths that are not missing are those with a node. -/
theorem missing_add (hD : D ⊆ S) (hdomain : ∀ p, t p ≠ none ↔ p ∈ D) :
    t.missing S + D.card = S.card := by
  have he : {p ∈ S | ¬ (t p).isNone} = D := by
    ext p
    rw [Finset.mem_filter, Option.isNone_iff_eq_none]
    exact ⟨fun h => (hdomain p).1 h.2, fun hp => ⟨hD hp, (hdomain p).2 hp⟩⟩
  rw [missing, ← he]
  exact Finset.card_filter_add_card_filter_not _

end Set

end PathTree
end Tupai.Lib
