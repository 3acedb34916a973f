import Mathlib.Data.Set.Function
import Mathlib.Order.CompletePartialOrder
import Mathlib.Order.Interval.Set.Disjoint
import Mathlib.Tactic.Common

namespace Tupai.Lib
set_option autoImplicit true

variable {α : Type*}

/-- Memory after `n` cells were copied one by one from the lowest on. -/
def copyUp (src dst : Nat) : (n : Nat) → (m : Nat → α) → Nat → α
  | 0, m => m
  | n + 1, m =>
    let m := copyUp src dst n m
    Function.update m (dst + n) (m (src + n))

theorem copyUp_of_notMem (h : x ∉ Set.Ico dst (dst + n)) : copyUp src dst n m x = m x := by
  induction n with
  | zero => rfl
  | succ n ih =>
    rw [Set.mem_Ico] at h ih
    rw [copyUp, Function.update_of_ne (by omega), ih (by omega)]

/-- Every cell is written once, with what was at the source by then. -/
theorem copyUp_apply (h : i < n) :
    copyUp src dst n m (dst + i) = copyUp src dst i m (src + i) := by
  induction n with
  | zero => exact absurd h (Nat.not_lt_zero i)
  | succ n ih =>
    rw [copyUp]
    rcases Nat.lt_succ_iff_lt_or_eq.1 h with hlt | rfl
    · rw [Function.update_of_ne (by omega), ih hlt]
    · rw [Function.update_self]

/-- A copy reads nothing but its source. -/
theorem copyUp_eqOn (h : Set.EqOn m m' S) (hs : Set.Ico src (src + n) ⊆ S) :
    Set.EqOn (copyUp src dst n m) (copyUp src dst n m') (S ∪ Set.Ico dst (dst + n)) := by
  induction n with
  | zero =>
    intro x hx
    rcases hx with hx | hx
    · exact h hx
    · rw [Set.mem_Ico] at hx
      omega
  | succ n ih =>
    have hn := ih fun x hx => hs ⟨hx.1, by have := hx.2; omega⟩
    intro x hx
    rw [copyUp, copyUp]
    by_cases he : x = dst + n
    · subst he
      rw [Function.update_self, Function.update_self]
      exact hn (.inl (hs ⟨by omega, by omega⟩))
    · rw [Function.update_of_ne he, Function.update_of_ne he]
      refine hn (hx.imp_right fun hx => ?_)
      rw [Set.mem_Ico] at hx ⊢
      omega

structure Copy where
  src : Nat
  dst : Nat
  len : Nat

namespace Copy

def source (c : Copy) : Set Nat := Set.Ico c.src (c.src + c.len)

def dest (c : Copy) : Set Nat := Set.Ico c.dst (c.dst + c.len)

def run (c : Copy) (m : Nat → α) : Nat → α := copyUp c.src c.dst c.len m

def runAll : (cs : List Copy) → (m : Nat → α) → Nat → α
  | [], m => m
  | c :: cs, m => runAll cs (c.run m)

def Done (c : Copy) (m m' : Nat → α) : Prop := ∀ i < c.len, m' (c.dst + i) = m (c.src + i)

/-- The copy gets to cells that it has written itself. -/
def Chases (c : Copy) : Prop := c.src < c.dst ∧ c.dst < c.src + c.len

def dests (cs : List Copy) : Set Nat := {x | ∃ c ∈ cs, x ∈ c.dest}

/-- Nothing that is still to be read is overwritten. -/
structure Safe (cs : List Copy) : Prop where
  straight : ∀ c ∈ cs, ¬ c.Chases
  ordered : cs.Pairwise fun c d => Disjoint c.dest d.source

instance (k l m n : Nat) : Decidable (Disjoint (Set.Ico k l) (Set.Ico m n)) :=
  decidable_of_iff _ Set.Ico_disjoint_Ico.symm

instance (c d : Copy) : Decidable (Disjoint c.dest d.source) :=
  inferInstanceAs (Decidable (Disjoint (Set.Ico _ _) (Set.Ico _ _)))

instance (c : Copy) : Decidable c.Chases := inferInstanceAs (Decidable (_ ∧ _))

instance (cs : List Copy) : Decidable (Safe cs) :=
  decidable_of_iff ((∀ c ∈ cs, ¬ c.Chases) ∧ cs.Pairwise fun c d => Disjoint c.dest d.source)
    ⟨fun h => ⟨h.1, h.2⟩, fun h => ⟨h.1, h.2⟩⟩

variable {c d : Copy} {cs : List Copy} {m m' : Nat → α} {S : Set Nat}

theorem mem_source (h : i < c.len) : c.src + i ∈ c.source :=
  ⟨Nat.le_add_right .., Nat.add_lt_add_left h _⟩

theorem mem_dest (h : i < c.len) : c.dst + i ∈ c.dest :=
  ⟨Nat.le_add_right .., Nat.add_lt_add_left h _⟩

theorem exists_mem_source (h : x ∈ c.source) : ∃ i < c.len, x = c.src + i := by
  obtain ⟨hle, hlt⟩ := h
  exact ⟨x - c.src, by omega, by omega⟩

theorem dests_cons (c : Copy) (cs : List Copy) : dests (c :: cs) = c.dest ∪ dests cs := by
  ext x
  simp [dests]

theorem Done.congr (h : c.Done m m') (he : Set.EqOn m'' m' c.dest) : c.Done m m'' := by
  intro i hi
  rw [he (mem_dest hi), h i hi]

theorem run_of_notMem (h : x ∉ c.dest) : c.run m x = m x := copyUp_of_notMem h

theorem run_done (h : ¬ c.Chases) (m : Nat → α) : c.Done m (c.run m) := by
  intro i hi
  rw [run, copyUp_apply hi]
  refine copyUp_of_notMem fun hx => h ?_
  rw [Set.mem_Ico] at hx
  rw [Chases]
  omega

/-- Where the copy gets to its own cells, it repeats the first one. -/
theorem run_chases (h : c.Chases) (m : Nat → α) : c.run m (c.dst + (c.dst - c.src)) = m c.src := by
  obtain ⟨hlt, hstop⟩ := h
  have hd : c.src + (c.dst - c.src) = c.dst + 0 := by omega
  rw [run, copyUp_apply (by omega), hd, copyUp_apply (by omega)]
  rfl

theorem run_eqOn (h : Set.EqOn m m' S) (hs : c.source ⊆ S) :
    Set.EqOn (c.run m) (c.run m') (S ∪ c.dest) := copyUp_eqOn h hs

theorem runAll_of_notMem (h : x ∉ dests cs) : runAll cs m x = m x := by
  induction cs generalizing m with
  | nil => rfl
  | cons c cs ih =>
    rw [dests_cons] at h
    rw [runAll, ih fun hx => h (.inr hx), run_of_notMem fun hx => h (.inl hx)]

/-- What the copies leave behind depends on the sources only, as far as they write. -/
theorem runAll_eqOn (h : Set.EqOn m m' S) (hs : ∀ c ∈ cs, c.source ⊆ S) :
    Set.EqOn (runAll cs m) (runAll cs m') (S ∪ dests cs) := by
  induction cs generalizing m m' S with
  | nil =>
    have hnone : dests [] = ∅ := by simp [dests]
    rw [hnone, Set.union_empty]
    exact h
  | cons c cs ih =>
    have hc := run_eqOn h (hs c List.mem_cons_self)
    rw [dests_cons, ← Set.union_assoc]
    exact ih hc fun d hd => (hs d (List.mem_cons_of_mem _ hd)).trans Set.subset_union_left

theorem notMem_dests (hdest : ∀ d ∈ cs, Disjoint c.dest d.dest) (hx : x ∈ c.dest) :
    x ∉ dests cs := by
  rintro ⟨d, hd, hxd⟩
  exact Set.disjoint_left.1 (hdest d hd) hx hxd

/-- What is still to be read is there when its turn comes. -/
theorem Safe.done (h : Safe cs) (hdest : cs.Pairwise fun c d => Disjoint c.dest d.dest)
    (m : Nat → α) : ∀ c ∈ cs, c.Done m (runAll cs m) := by
  induction cs generalizing m with
  | nil => exact fun _ hc => absurd hc List.not_mem_nil
  | cons c cs ih =>
    obtain ⟨hcd, hdest⟩ := List.pairwise_cons.1 hdest
    obtain ⟨hcs, hordered⟩ := List.pairwise_cons.1 h.ordered
    have hrest := ih ⟨fun d hd => h.straight d (List.mem_cons_of_mem _ hd), hordered⟩ hdest
    intro d hd
    rcases List.mem_cons.1 hd with rfl | hd
    · refine (run_done (h.straight d List.mem_cons_self) m).congr fun x hx => ?_
      exact runAll_of_notMem (notMem_dests hcd hx)
    · intro i hi
      rw [runAll, hrest (c.run m) d hd i hi]
      refine run_of_notMem fun hx => ?_
      exact Set.disjoint_left.1 (hcs d hd) hx (mem_source hi)

theorem eqOn_update [DecidableEq β] {f g : β → α} {F : Set β} (h : Set.EqOn f g F) (hx : x ∉ F)
    (v : α) : Set.EqOn (Function.update f x v) g F := by
  intro y hy
  have hne : y ≠ x := fun he => hx (he ▸ hy)
  rw [Function.update_of_ne hne, h hy]

variable {F : Set Nat}

/-- A copy that gets to its own cells loses the memory in which these differ. -/
theorem not_chases_of_done [Nontrivial α] (m₀ : Nat → α) (hfix : Disjoint c.source F)
    (h : ∀ m, Set.EqOn m m₀ F → c.Done m (c.run m)) : ¬ c.Chases := by
  intro hc
  obtain ⟨hlt, hstop⟩ := hc
  have hdst : c.src + (c.dst - c.src) = c.dst := by omega
  obtain ⟨v, hv⟩ := exists_ne (m₀ c.src)
  have hin : c.dst ∈ c.source := ⟨by omega, hstop⟩
  have hdone := h _ (eqOn_update (Set.eqOn_refl m₀ F) (Set.disjoint_left.1 hfix hin) v)
    (c.dst - c.src) (by omega)
  rw [run_chases ⟨hlt, hstop⟩, hdst, Function.update_self,
    Function.update_of_ne (by omega)] at hdone
  exact hv hdone.symm

/-- A copy over a later source loses what was there. -/
theorem disjoint_of_done [Nontrivial α] (m₀ : Nat → α) (hsrc : Disjoint c.source d.source)
    (hfix : Disjoint d.source F)
    (h : ∀ m, Set.EqOn m m₀ F → d.Done m (runAll cs (c.run m))) : Disjoint c.dest d.source := by
  refine Set.disjoint_left.2 fun x hx hxs => ?_
  obtain ⟨j, hj, rfl⟩ := exists_mem_source hxs
  obtain ⟨v, hv⟩ := exists_ne (m₀ (d.src + j))
  -- The two memories differ in one cell only, and it is overwritten before it is read.
  have hsame : c.run (Function.update m₀ (d.src + j) v) = c.run m₀ := by
    have heq : Set.EqOn (Function.update m₀ (d.src + j) v) m₀ (c.source ∪ {d.src + j}ᶜ) := by
      refine eqOn_update (Set.eqOn_refl ..) (fun hmem => ?_) v
      rcases hmem with hmem | hmem
      · exact Set.disjoint_left.1 hsrc hmem hxs
      · exact hmem rfl
    funext y
    refine run_eqOn heq Set.subset_union_left ?_
    by_cases hy : y = d.src + j
    · exact .inr (hy ▸ hx)
    · exact .inl (.inr hy)
  have hold := h m₀ (Set.eqOn_refl m₀ F) j hj
  have hnew := h _ (eqOn_update (Set.eqOn_refl m₀ F) (Set.disjoint_left.1 hfix hxs) v) j hj
  rw [hsame, hold, Function.update_self] at hnew
  exact hv hnew.symm

/-- Copies with disjoint destinations and disjoint sources preserve every memory that is fixed
outside of the sources if and only if they overwrite nothing that is still to be read. -/
theorem safe_iff [Nontrivial α] (hdest : cs.Pairwise fun c d => Disjoint c.dest d.dest)
    (hsrc : cs.Pairwise fun c d => Disjoint c.source d.source)
    (hfix : ∀ c ∈ cs, Disjoint c.source F) (m₀ : Nat → α) :
    (∀ m, Set.EqOn m m₀ F → ∀ c ∈ cs, c.Done m (runAll cs m)) ↔ Safe cs := by
  constructor
  · intro h
    induction cs with
    | nil => exact ⟨fun _ hc => absurd hc List.not_mem_nil, .nil⟩
    | cons c cs ih =>
      obtain ⟨hcd, hdest⟩ := List.pairwise_cons.1 hdest
      obtain ⟨hcs, hsrc⟩ := List.pairwise_cons.1 hsrc
      have hstraight : ¬ c.Chases := by
        refine not_chases_of_done m₀ (hfix c List.mem_cons_self) fun m hm => ?_
        refine (h m hm c List.mem_cons_self).congr fun x hx => ?_
        exact (runAll_of_notMem (notMem_dests hcd hx)).symm
      have hordered : ∀ d ∈ cs, Disjoint c.dest d.source := fun d hd =>
        disjoint_of_done m₀ (hcs d hd) (hfix d (List.mem_cons_of_mem _ hd)) fun m hm =>
          h m hm d (List.mem_cons_of_mem _ hd)
      have hrest : Safe cs := by
        refine ih hdest hsrc (fun d hd => hfix d (List.mem_cons_of_mem _ hd)) fun m hm d hd => ?_
        -- The later copies do not see the first one.
        have heq : Set.EqOn m (c.run m) c.destᶜ := fun x hx => (run_of_notMem hx).symm
        have hsub : ∀ d ∈ cs, d.source ⊆ c.destᶜ := fun d hd =>
          (hordered d hd).symm.subset_compl_right
        refine (h m hm d (List.mem_cons_of_mem _ hd)).congr fun x hx => ?_
        exact runAll_eqOn heq hsub (.inr ⟨d, hd, hx⟩)
      exact ⟨List.forall_mem_cons.2 ⟨hstraight, hrest.straight⟩,
        List.pairwise_cons.2 ⟨hordered, hrest.ordered⟩⟩
  · exact fun h m _ => h.done hdest m

end Copy
end Tupai.Lib
