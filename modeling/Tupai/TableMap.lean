import Mathlib.Data.Finmap
import Tupai.Hashtable
import Tupai.Lib.Transition

namespace Tupai
open Lib
set_option autoImplicit true

/-- The finite map that a table stands for. -/
abbrev TableMap (T : Type u) := Finmap fun _ : Int => T

/-- The table holds exactly the entries of the map. -/
structure Hashtable.Refines (h : Hashtable T) (m : TableMap T) : Prop where
  ok : h.Ok
  get : ∀ k, h.get k = m.lookup k

/-- One modifying call, with the map recording the value last added under each present key. -/
inductive TableStep : Hashtable T × TableMap T → Hashtable T × TableMap T → Prop where
  | add (h : Hashtable T) (m : TableMap T) (k : Int) (v : T) : k ∉ m →
      TableStep (h, m) ((h.add k v).2, if (h.add k v).1 then m.insert k v else m)
  | remove (h : Hashtable T) (m : TableMap T) (k : Int) :
      TableStep (h, m) ((h.remove k).2, m.erase k)

def FreshTable (s : Hashtable T × TableMap T) : Prop := s.1.Unused ∧ s.2 = ∅

/-- What every call returns, in terms of the map alone. -/
structure TableSpec (h : Hashtable T) (m : TableMap T) : Prop where
  get : ∀ k, h.get k = m.lookup k
  remove : ∀ k, ((h.remove k).1 = true ↔ k ∈ m) ∧
    ∀ j, (h.remove k).2.get j = (m.erase k).lookup j
  size : h.size = m.keys.card
  nth : ∃ ks : List Int, ks.Nodup ∧ ks.toFinset = m.keys ∧
    ∀ i, h.nth i = ks[i]?.bind m.lookup
  addFails : ∀ k ∉ m, ∀ v, ((h.add k v).1 = false ↔ m.keys.card = HASHTABLE_CAPACITY) ∧
    ((h.add k v).1 = false → (h.add k v).2 = h)
  adds : ∀ k ∉ m, ∀ v, (h.add k v).1 = true →
    ∀ j, (h.add k v).2.get j = (m.insert k v).lookup j

variable {h : Hashtable T} {m : TableMap T}

theorem Hashtable.Refines.mem_iff (hr : h.Refines m) (k : Int) :
    k ∈ m ↔ ∃ i < HASHTABLE_CAPACITY, h.used i = true ∧ h.keys i = k := by
  rw [← Finmap.lookup_isSome, ← hr.get, Hashtable.get, Option.isSome_map]
  constructor
  · intro hs
    obtain ⟨i, hi⟩ := Option.isSome_iff_exists.1 hs
    obtain ⟨hlt, hk, hu⟩ := Hashtable.slot_some hi
    exact ⟨i, hlt, hu, hk⟩
  · rintro ⟨i, hlt, hu, hk⟩
    rw [hr.ok.slot_iff.2 ⟨hlt, hu, hk⟩]
    rfl

def Hashtable.keyList (h : Hashtable T) : List Int :=
  (flaggedList HASHTABLE_CAPACITY h.used).map h.keys

theorem Hashtable.Refines.keyList_toFinset (hr : h.Refines m) :
    h.keyList.toFinset = m.keys := by
  ext k
  rw [List.mem_toFinset, Finmap.mem_keys, hr.mem_iff, keyList, List.mem_map]
  simp only [mem_flaggedList, and_assoc]

theorem Hashtable.Ok.keyList_nodup (ok : h.Ok) : h.keyList.Nodup := by
  refine (flaggedList_nodup _ _).map_on fun i hi j hj he => ?_
  rw [mem_flaggedList] at hi hj
  exact ok.inj i hi.1 j hj.1 hi.2 hj.2 he

theorem Hashtable.Refines.size_eq (hr : h.Refines m) : h.size = m.keys.card := by
  rw [← hr.keyList_toFinset, List.toFinset_card_of_nodup hr.ok.keyList_nodup, keyList,
    List.length_map, length_flaggedList, hr.ok.size_eq]

theorem Hashtable.Refines.nth_eq (hr : h.Refines m) (i : Nat) :
    h.nth i = h.keyList[i]?.bind m.lookup := by
  rw [nth, keyList, List.getElem?_map]
  cases hi : (flaggedList HASHTABLE_CAPACITY h.used)[i]? with
  | none => rfl
  | some j =>
    obtain ⟨hj, hu⟩ := mem_flaggedList.1 (List.mem_of_getElem? hi)
    simp only [Option.map_some, Option.bind_some]
    rw [← hr.get, hr.ok.get_of_slot hj hu rfl]

theorem Hashtable.Refines.absent (hr : h.Refines m) (hk : k ∉ m) : h.get k = none := by
  rw [hr.get, Finmap.lookup_eq_none]
  exact hk

theorem Hashtable.Refines.erase (hr : h.Refines m) (k : Int) :
    (h.remove k).2.Refines (m.erase k) := by
  refine ⟨hr.ok.remove k, fun j => ?_⟩
  rw [hr.ok.get_remove]
  split_ifs with he
  · rw [he, Finmap.lookup_erase]
  · rw [Finmap.lookup_erase_ne he, hr.get]

theorem Hashtable.Refines.insert (hr : h.Refines m) (hk : k ∉ m) (v : T)
    (ht : (h.add k v).1 = true) : (h.add k v).2.Refines (m.insert k v) := by
  obtain ⟨ok', _, hget⟩ := hr.ok.add_spec (hr.absent hk) ((hr.ok.add_fst k v).1 ht) v
  refine ⟨ok', fun j => ?_⟩
  rw [hget]
  split_ifs with he
  · rw [he, Finmap.lookup_insert]
  · rw [Finmap.lookup_insert_of_ne _ he, hr.get]

theorem Hashtable.add_failed (ht : (h.add k v).1 = false) : (h.add k v).2 = h := by
  cases hf : h.freeSlot k with
  | none => rw [add_full hf]
  | some i => rw [add, hf] at ht; cases ht

theorem Hashtable.Refines.spec (hr : h.Refines m) : TableSpec h m where
  get := hr.get
  remove := by
    intro k
    refine ⟨?_, (hr.erase k).get⟩
    rw [Hashtable.remove_fst, hr.get, Finmap.lookup_isSome]
  size := hr.size_eq
  nth := ⟨h.keyList, hr.ok.keyList_nodup, hr.keyList_toFinset, hr.nth_eq⟩
  addFails := by
    intro k hk v
    refine ⟨?_, Hashtable.add_failed⟩
    have hle := hr.ok.size_le
    rw [← Bool.not_eq_true, hr.ok.add_fst, ← hr.size_eq]
    omega
  adds := fun k hk v ht => (hr.insert hk v ht).get

/-- `hashtable_t` refines a finite map of capacity 256. -/
theorem hashtable_refines (hr : Reachable FreshTable TableStep (h, m)) : TableSpec h m := by
  have hrun : ∀ s : Hashtable T × TableMap T, Reachable FreshTable TableStep s →
      s.1.Refines s.2 := by
    intro s hs
    apply hs.invariant (I := fun s => s.1.Refines s.2)
    · rintro ⟨h, m⟩ ⟨hu, he⟩
      refine ⟨hu.ok, fun k => ?_⟩
      rw [he, Finmap.lookup_empty]
      exact hu.get k
    · intro s t hrs ht
      cases ht with
      | add h m k v hk =>
        cases hb : (h.add k v).1 with
        | false =>
          rw [if_neg (by simp)]
          rw [Hashtable.add_failed hb]
          exact hrs
        | true =>
          rw [if_pos rfl]
          exact hrs.insert hk v hb
      | remove h m k => exact hrs.erase k
  exact (hrun _ hr).spec

/-- Three keys hash to one slot, and the one in the middle of their probe run is removed. -/
theorem hashtable_refines_probed :
    let m₁ := (∅ : TableMap Nat).insert (-3) 7
    let h₁ := (Hashtable.zeroed.add (-3) 7).2
    let h₃ := ((h₁.add 253 8).2.add 509 9).2
    TableSpec (h₃.remove 253).2 (((m₁.insert 253 8).insert 509 9).erase 253) := by
  intro m₁ h₁ h₃
  have hfirst : TableStep (Hashtable.zeroed, ∅) (h₁, m₁) :=
    .add _ ∅ (-3) 7 Finmap.notMem_empty
  have hsecond : TableStep (h₁, m₁) ((h₁.add 253 8).2, m₁.insert 253 8) :=
    .add _ _ 253 8 (by simp [m₁, Finmap.notMem_empty])
  have hthird : TableStep ((h₁.add 253 8).2, m₁.insert 253 8)
      (h₃, (m₁.insert 253 8).insert 509 9) :=
    .add _ _ 509 9 (by simp [m₁, Finmap.notMem_empty])
  exact hashtable_refines (.step (.step (.step (.step (.init ⟨Hashtable.zeroed_unused, rfl⟩) hfirst)
    hsecond) hthird) (.remove _ _ 253))

end Tupai
