import Mathlib.Data.Finset.Card
import Mathlib.Data.Finset.Range
import Mathlib.Data.Finset.Dedup
import Mathlib.Data.List.Find
import Mathlib.Logic.Function.Basic

namespace Tupai.Lib
set_option autoImplicit true

/-- The first slot satisfying `p` on a walk around a table of `cap` slots. -/
def probe (cap offset : Nat) (p : Nat → Bool) : Option Nat :=
  ((List.range cap).map fun i => (offset + i) % cap).find? p

theorem mem_probe_walk (offset : Nat) (hi : i < cap) :
    i ∈ (List.range cap).map fun j => (offset + j) % cap := by
  have hpos : 0 < cap := Nat.lt_of_le_of_lt (Nat.zero_le i) hi
  refine List.mem_map.2 ⟨(i + (cap - offset % cap)) % cap, ?_, ?_⟩
  · exact List.mem_range.2 (Nat.mod_lt _ hpos)
  · have hlt := Nat.mod_lt offset hpos
    have hsum : offset % cap + (i + (cap - offset % cap)) = i + cap := by omega
    rw [Nat.add_mod_mod, ← Nat.mod_add_mod, hsum, Nat.add_mod_right, Nat.mod_eq_of_lt hi]

theorem probe_some (h : probe cap offset p = some i) : i < cap ∧ p i = true := by
  refine ⟨?_, List.find?_some h⟩
  obtain ⟨j, hj, rfl⟩ := List.mem_map.1 (List.mem_of_find?_eq_some h)
  exact Nat.mod_lt _ (Nat.lt_of_le_of_lt (Nat.zero_le j) (List.mem_range.1 hj))

theorem probe_none_iff : probe cap offset p = none ↔ ∀ i < cap, p i = false := by
  rw [probe, List.find?_eq_none]
  constructor
  · intro h i hi
    simpa using h i (mem_probe_walk offset hi)
  · intro h i hi
    obtain ⟨j, hj, rfl⟩ := List.mem_map.1 hi
    have hpos : 0 < cap := Nat.lt_of_le_of_lt (Nat.zero_le j) (List.mem_range.1 hj)
    simpa using h _ (Nat.mod_lt _ hpos)

/-- When only one slot qualifies, the walk finds it wherever it starts. -/
theorem probe_unique (hi : i < cap) (hp : p i = true) (hu : ∀ j < cap, p j = true → j = i) :
    probe cap offset p = some i := by
  cases h : probe cap offset p with
  | none =>
    rw [probe_none_iff.1 h i hi] at hp
    cases hp
  | some j =>
    obtain ⟨hj, hpj⟩ := probe_some h
    rw [hu j hj hpj]

theorem probe_congr (h : ∀ i < cap, p i = q i) : probe cap offset p = probe cap offset q := by
  apply List.find?_congr
  intro i hi
  obtain ⟨j, hj, rfl⟩ := List.mem_map.1 hi
  have hpos : 0 < cap := Nat.lt_of_le_of_lt (Nat.zero_le j) (List.mem_range.1 hj)
  exact h _ (Nat.mod_lt _ hpos)

/-- Once the first free slot is marked, a walk to a marked slot stops at the first slot that was
free or marked. -/
theorem probe_mark {free p : Nat → Bool} (hf : probe cap offset free = some i) :
    probe cap offset (fun j => j == i || p j) = probe cap offset (fun j => free j || p j) := by
  rw [probe] at hf
  rw [probe, probe]
  generalize (List.range cap).map (fun i => (offset + i) % cap) = walk at hf ⊢
  induction walk with
  | nil => rfl
  | cons a walk ih =>
    rw [List.find?_cons] at hf
    rw [List.find?_cons, List.find?_cons]
    cases ha : free a with
    | true =>
      rw [ha] at hf
      cases hf
      simp
    | false =>
      rw [ha] at hf
      have hne : a ≠ i := by
        rintro rfl
        rw [List.find?_some hf] at ha
        cases ha
      rw [beq_false_of_ne hne, Bool.false_or, ih hf]

def flagged (cap : Nat) (f : Nat → Bool) : Nat := ((Finset.range cap).filter fun i => f i).card

theorem flagged_le (cap : Nat) (f : Nat → Bool) : flagged cap f ≤ cap :=
  (Finset.card_filter_le _ _).trans_eq (Finset.card_range cap)

theorem flagged_eq_cap_iff : flagged cap f = cap ↔ ∀ i < cap, f i = true := by
  have hc := Finset.card_range cap
  rw [flagged]
  constructor
  · intro h i hi
    have he := Finset.filter_card_eq (h.trans hc.symm)
    exact he i (Finset.mem_range.2 hi)
  · intro h
    rw [Finset.filter_true_of_mem fun i hi => h i (Finset.mem_range.1 hi), hc]

theorem flagged_set (hi : i < cap) (hf : f i = false) :
    flagged cap (Function.update f i true) = flagged cap f + 1 := by
  have he : (Finset.range cap).filter (fun j => Function.update f i true j) =
      insert i ((Finset.range cap).filter fun j => f j) := by
    ext j
    by_cases hj : j = i
    · subst j; simp [hi]
    · simp [hj]
  rw [flagged, he, Finset.card_insert_of_notMem (by simp [hf]), flagged]

theorem flagged_clear (hi : i < cap) (hf : f i = true) :
    flagged cap (Function.update f i false) + 1 = flagged cap f := by
  have he := flagged_set (f := Function.update f i false) hi (Function.update_self i false f)
  rw [Function.update_idem, ← hf, Function.update_eq_self] at he
  exact he.symm

theorem flagged_none (h : ∀ i < cap, f i = false) : flagged cap f = 0 := by
  rw [flagged, Finset.filter_false_of_mem fun i hi => by simp [h i (Finset.mem_range.1 hi)],
    Finset.card_empty]

/-- The flagged slots in increasing order. -/
def flaggedList (cap : Nat) (f : Nat → Bool) : List Nat := (List.range cap).filter f

theorem mem_flaggedList : i ∈ flaggedList cap f ↔ i < cap ∧ f i = true := by
  rw [flaggedList, List.mem_filter, List.mem_range]

theorem flaggedList_nodup (cap : Nat) (f : Nat → Bool) : (flaggedList cap f).Nodup :=
  List.nodup_range.filter f

theorem length_flaggedList (cap : Nat) (f : Nat → Bool) :
    (flaggedList cap f).length = flagged cap f := by
  rw [flagged, ← List.toFinset_card_of_nodup (flaggedList_nodup cap f)]
  congr 1
  ext i
  simp [flaggedList]

end Tupai.Lib
