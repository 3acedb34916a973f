import Mathlib.Data.Fintype.Card
import Mathlib.Data.Set.Finite.Basic
import Mathlib.Logic.Relation
import Mathlib.Order.WellFoundedSet

namespace Tupai.Lib
open Relation
set_option autoImplicit true

/-- The preorder traversal of a forest in a graph whose edges have labels. Every node that it comes
to is told by its depth and the label of the edge that led there. -/
inductive Traverses (edges : N → List (N × L)) : Nat → List (N × L) → List (Nat × L) → Prop where
  | nil : Traverses edges d [] []
  | cons : Traverses edges (d + 1) (edges n) below → Traverses edges d rest after →
      Traverses edges d ((n, l) :: rest) ((d, l) :: (below ++ after))

def Child (edges : N → List (N × L)) (m n : N) : Prop := m ∈ (edges n).map Prod.fst

/-- The nodes of a forest and those below them. -/
def Visited (edges : N → List (N × L)) (forest : List (N × L)) (m : N) : Prop :=
  ∃ n ∈ forest.map Prod.fst, ReflTransGen (Child edges) m n

variable {edges edges' : N → List (N × L)} {forest forest' : List (N × L)}

theorem Traverses.append (h : Traverses edges d forest lines)
    (h' : Traverses edges d forest' lines') :
    Traverses edges d (forest ++ forest') (lines ++ lines') := by
  induction h with
  | nil => exact h'
  | cons hbelow _ _ ihAfter =>
    have hafter := ihAfter h'
    rw [List.cons_append, List.cons_append, List.append_assoc]
    exact .cons hbelow hafter

/-- Only what is well-founded is traversed. -/
theorem Traverses.acc (h : Traverses edges d forest lines) :
    ∀ n ∈ forest.map Prod.fst, Acc (Child edges) n := by
  induction h with
  | nil => exact fun n hn => absurd hn List.not_mem_nil
  | cons _ _ ihBelow ihAfter =>
    rw [List.map_cons, List.forall_mem_cons]
    exact ⟨Acc.intro _ ihBelow, ihAfter⟩

/-- Where finitely many nodes are children, a node is well-founded exactly when no cycle is below
it. -/
theorem acc_iff_acyclic {r : α → α → Prop} (hfin : {m | ∃ n, r m n}.Finite) (n : α) :
    Acc r n ↔ ∀ m, ReflTransGen r m n → ¬ TransGen r m m := by
  constructor
  · intro h m hm hcycle
    have hacc : Acc (TransGen r) m := by
      rcases reflTransGen_iff_eq_or_transGen.1 hm with rfl | hbelow
      · exact h.transGen
      · exact h.transGen.inv hbelow
    induction hacc with
    | intro m _ ih => exact ih m hcycle hm hcycle
  · intro hacyclic
    have hsub : {m | TransGen r m n}.Finite := hfin.subset fun m hm => by
      obtain ⟨k, hk, -⟩ := TransGen.head'_iff.1 hm
      exact ⟨k, hk⟩
    have : Finite {m | TransGen r m n} := hsub
    refine (Set.WellFoundedOn.acc_iff_wellFoundedOn.out 0 2).2 ?_
    let below : {m | TransGen r m n} → {m | TransGen r m n} → Prop := fun x y => TransGen r x y
    have : IsTrans _ below := ⟨fun _ _ _ => TransGen.trans⟩
    have : Std.Irrefl below := ⟨fun x => hacyclic x x.2.to_reflTransGen⟩
    have hwf : WellFounded below := Finite.wellFounded_of_trans_of_irrefl below
    exact Subrelation.wf (r := below) (fun {x y} (hxy : r x y) => TransGen.single hxy) hwf

theorem Visited.below (h : Visited edges (edges n) m) (l : L) (rest : List (N × L)) :
    Visited edges ((n, l) :: rest) m := by
  obtain ⟨k, hk, hm⟩ := h
  exact ⟨n, List.mem_cons_self, hm.tail hk⟩

theorem Visited.after (h : Visited edges rest m) (n : N) (l : L) :
    Visited edges ((n, l) :: rest) m := by
  obtain ⟨k, hk, hm⟩ := h
  exact ⟨k, List.mem_cons_of_mem _ hk, hm⟩

theorem visited_cons_iff : Visited edges ((n, l) :: rest) m ↔
    m = n ∨ Visited edges (edges n) m ∨ Visited edges rest m := by
  constructor
  · rintro ⟨k, hk, hm⟩
    rcases List.mem_cons.1 hk with rfl | hk
    · rcases hm.cases_tail with he | ⟨c, hmc, hc⟩
      · exact .inl he.symm
      · exact .inr (.inl ⟨c, hc, hmc⟩)
    · exact .inr (.inr ⟨k, hk, hm⟩)
  · rintro (rfl | h | h)
    · exact ⟨m, List.mem_cons_self, .refl⟩
    · exact h.below l rest
    · exact h.after n l

/-- A traversal depends only on the nodes that it comes to. -/
theorem Traverses.congr (h : Traverses edges d forest lines)
    (he : ∀ n, Visited edges forest n → edges n = edges' n) : Traverses edges' d forest lines := by
  induction h with
  | nil => exact .nil
  | @cons d n below rest after l _ _ ihBelow ihAfter =>
    have hbelow := ihBelow fun m hm => he m (hm.below l rest)
    rw [he n (visited_cons_iff.2 (.inl rfl))] at hbelow
    exact .cons hbelow (ihAfter fun m hm => he m (hm.after n l))

/-- The edges are some of those of the other graph, and may have other labels. -/
def Thins (edges' edges : N → List (N × L)) : Prop :=
  ∀ n, ((edges' n).map Prod.fst).Sublist ((edges n).map Prod.fst)

/-- The traversal of a thinner forest is shorter, or the forests are one and the same. -/
theorem Traverses.agree (hthin : Thins edges' edges) (h : Traverses edges d forest lines)
    (h' : Traverses edges' d forest' lines')
    (hf : (forest'.map Prod.fst).Sublist (forest.map Prod.fst)) :
    lines'.length ≤ lines.length ∧ (lines' = lines →
      forest' = forest ∧ ∀ n, Visited edges forest n → edges' n = edges n) := by
  induction h generalizing forest' lines' with
  | nil =>
    rw [List.map_nil, List.sublist_nil, List.map_eq_nil_iff] at hf
    subst hf
    cases h'
    exact ⟨Nat.le_refl _, fun _ => ⟨rfl, fun n ⟨k, hk, _⟩ => absurd hk List.not_mem_nil⟩⟩
  | @cons d n below rest after l _ _ ihBelow ihAfter =>
    rw [List.map_cons] at hf
    rcases List.sublist_cons_iff.1 hf with hskip | ⟨ids, hids, hrest⟩
    · -- The first tree is missing, so that there are fewer lines.
      have hlen := (ihAfter h' hskip).1
      rw [List.length_cons, List.length_append]
      refine ⟨by omega, fun he => ?_⟩
      have hlen' := congrArg List.length he
      rw [List.length_cons, List.length_append] at hlen'
      omega
    · obtain ⟨e, forest', rfl⟩ : ∃ e tail, forest' = e :: tail := by
        cases forest' with
        | nil => cases hids
        | cons e tail => exact ⟨e, tail, rfl⟩
      obtain ⟨rfl, rfl⟩ := List.cons.inj hids
      cases h' with
      | @cons _ _ below' _ after' l' hbelow' hafter' =>
        obtain ⟨hlenBelow, hbelow⟩ := ihBelow hbelow' (hthin _)
        obtain ⟨hlenAfter, hafter⟩ := ihAfter hafter' hrest
        simp only [List.length_cons, List.length_append]
        refine ⟨by omega, fun he => ?_⟩
        obtain ⟨hfirst, happend⟩ := List.cons.inj he
        have hlen := congrArg List.length happend
        rw [List.length_append, List.length_append] at hlen
        obtain ⟨rfl, rfl⟩ := List.append_inj happend (by omega)
        obtain ⟨hedges, hvisited⟩ := hbelow rfl
        obtain ⟨rfl, hrest'⟩ := hafter rfl
        refine ⟨by rw [(Prod.mk.inj hfirst).2], fun m hm => ?_⟩
        rcases visited_cons_iff.1 hm with rfl | hm | hm
        · exact hedges
        · exact hvisited m hm
        · exact hrest' m hm

theorem Visited.mono (hthin : Thins edges' edges) (h : Visited edges' forest m) :
    Visited edges forest m := by
  obtain ⟨n, hn, hm⟩ := h
  exact ⟨n, hn, ReflTransGen.mono (fun _ b hab => (hthin b).subset hab) _ _ hm⟩

/-- A traversal of some of the edges is one of all edges exactly when it comes to no node whose
edges, or whose labels, differ. -/
theorem Traverses.iff_agree (hthin : Thins edges' edges) (h : Traverses edges' d forest lines) :
    Traverses edges d forest lines ↔ ∀ n, Visited edges forest n → edges' n = edges n := by
  constructor
  · intro hall
    exact ((hall.agree hthin h (List.Sublist.refl _)).2 rfl).2
  · intro he
    exact h.congr fun n hn => he n (hn.mono hthin)

end Tupai.Lib
