import Mathlib.Tactic.Common

namespace Tupai.Lib
set_option autoImplicit true

/-- Objects with their values and with all that they own, one after the other. -/
inductive Owned (R : γ → β → List κ → Prop) : List γ → List β → List κ → Prop where
  | nil : Owned R [] [] []
  | cons : R c v o → Owned R cs vs os → Owned R (c :: cs) (v :: vs) (o ++ os)

variable {R R' : γ → β → List κ → Prop}

theorem Owned.imp (h : Owned R cs vs os) (hR : ∀ c v o, o ⊆ os → R c v o → R' c v o) :
    Owned R' cs vs os := by
  induction h with
  | nil => exact .nil
  | cons hc _ ih =>
    refine .cons (hR _ _ _ (List.subset_append_left ..) hc) (ih fun c v o ho => ?_)
    exact hR c v o (List.subset_append_of_subset_right _ ho)

theorem Owned.mem (h : Owned R cs vs os) (hb : b ∈ os) : ∃ c v o, R c v o ∧ b ∈ o := by
  induction h with
  | nil => cases hb
  | cons hc _ ih =>
    rcases List.mem_append.1 hb with hb | hb
    · exact ⟨_, _, _, hc, hb⟩
    · exact ih hb

theorem Owned.length (h : Owned R cs vs os) : cs.length = vs.length := by
  induction h with
  | nil => rfl
  | cons _ _ ih => rw [List.length_cons, List.length_cons, ih]

theorem Owned.concat (h : Owned R cs vs os) (hc : R c v o) :
    Owned R (cs ++ [c]) (vs ++ [v]) (os ++ o) := by
  induction h with
  | nil =>
    have hone := Owned.cons hc .nil
    rwa [List.append_nil] at hone
  | cons hd _ ih =>
    rw [List.append_assoc]
    exact .cons hd ih

theorem Owned.of_concat (h : Owned R (cs ++ [c]) vs os) :
    ∃ vs' v os' o, vs = vs' ++ [v] ∧ os = os' ++ o ∧ Owned R cs vs' os' ∧ R c v o := by
  induction cs generalizing vs os with
  | nil =>
    cases h with
    | cons hc hnil =>
      cases hnil
      exact ⟨[], _, [], _, rfl, List.append_nil _, .nil, hc⟩
  | cons d cs ih =>
    cases h with
    | cons hd hrest =>
      obtain ⟨vs', v, os', o, rfl, rfl, hinit, hlast⟩ := ih hrest
      exact ⟨_, v, _, o, rfl, (List.append_assoc ..).symm, .cons hd hinit, hlast⟩

/-- One of the objects owns a part of the whole. -/
theorem Owned.getElem? {i : Nat} (h : Owned R cs vs os) (hi : vs[i]? = some v) :
    ∃ c before o after, cs[i]? = some c ∧ os = before ++ o ++ after ∧ R c v o := by
  induction h generalizing i with
  | nil => cases hi
  | @cons c₀ _ o₀ _ _ os hc _ ih =>
    cases i with
    | zero =>
      cases hi
      exact ⟨c₀, [], o₀, os, rfl, rfl, hc⟩
    | succ i =>
      obtain ⟨c, before, o, after, hcs, rfl, hR⟩ := ih hi
      exact ⟨c, o₀ ++ before, o, after, hcs, by simp only [List.append_assoc], hR⟩

/-- Objects that own nothing leave all to the first one. -/
theorem Owned.of_bare (h : Owned R cs vs os) (hR : ∀ c ∈ cs, ∀ v o, R c v o → o = []) :
    os = [] := by
  induction h with
  | nil => rfl
  | cons hc _ ih =>
    rw [hR _ List.mem_cons_self _ _ hc, List.nil_append]
    exact ih fun c hmem => hR c (List.mem_cons_of_mem _ hmem)

end Tupai.Lib
