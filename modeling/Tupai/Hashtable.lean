import Tupai.Basic
import Tupai.Lib.Probe

namespace Tupai
open Lib
set_option autoImplicit true

def ID_INVALID : Int := -1

def hash (x : Int) : Nat := (x % 2 ^ 64).toNat

def HASHTABLE_CAPACITY : Nat := 256

/-- A table with linear probing; `data` and `keys` of an unused slot hold leftover values. The count
stands for its value as a `size_t`: below 0, where only leftover contents lead, that has wrapped. -/
structure Hashtable (T : Type u) where
  data : Nat → T
  used : Nat → Bool
  keys : Nat → Int
  itemCount : Int

namespace Hashtable

/-- The count of a table that has not wrapped. -/
def size (h : Hashtable T) : Nat := h.itemCount.toNat

def slot (h : Hashtable T) (key : Int) : Option Nat :=
  probe HASHTABLE_CAPACITY (hash key % HASHTABLE_CAPACITY) fun i => h.keys i == key && h.used i

def freeSlot (h : Hashtable T) (key : Int) : Option Nat :=
  probe HASHTABLE_CAPACITY (hash key % HASHTABLE_CAPACITY) fun i => !h.used i

def add (h : Hashtable T) (key : Int) (item : T) : Bool × Hashtable T :=
  match h.freeSlot key with
  | some i =>
    (true, { data := Function.update h.data i item
             used := Function.update h.used i true
             keys := Function.update h.keys i key
             itemCount := h.itemCount + 1 })
  | none => (false, h)

def remove (h : Hashtable T) (key : Int) : Bool × Hashtable T :=
  match h.slot key with
  | some i =>
    (true, { h with used := Function.update h.used i false, itemCount := h.itemCount - 1 })
  | none => (false, h)

def get (h : Hashtable T) (key : Int) : Option T := (h.slot key).map h.data

/-- A write through the pointer that `get` returns. -/
def modify (h : Hashtable T) (key : Int) (f : T → T) : Hashtable T :=
  match h.slot key with
  | some i => { h with data := Function.update h.data i (f (h.data i)) }
  | none => h

def nth (h : Hashtable T) (index : Nat) : Option T :=
  (flaggedList HASHTABLE_CAPACITY h.used)[index]?.map h.data

/-- Zero-initialised static storage. -/
def zeroed [Inhabited T] : Hashtable T := ⟨fun _ => default, fun _ => false, fun _ => 0, 0⟩

/-- No two used slots hold the same key, and the count is the number of used slots. -/
structure Ok (h : Hashtable T) : Prop where
  inj : ∀ i < HASHTABLE_CAPACITY, ∀ j < HASHTABLE_CAPACITY, h.used i = true → h.used j = true →
    h.keys i = h.keys j → i = j
  count : h.itemCount = flagged HASHTABLE_CAPACITY h.used

def Unused (h : Hashtable T) : Prop :=
  h.itemCount = 0 ∧ ∀ i < HASHTABLE_CAPACITY, h.used i = false

theorem zeroed_unused [Inhabited T] : (zeroed : Hashtable T).Unused := ⟨rfl, fun _ _ => rfl⟩

theorem Unused.ok {h : Hashtable T} (hu : h.Unused) : h.Ok where
  inj := fun i hi _ _ hui => by rw [hu.2 i hi] at hui; cases hui
  count := by
    rw [hu.1, flagged_none hu.2]
    rfl

theorem Unused.size_eq {h : Hashtable T} (hu : h.Unused) : h.size = 0 := by
  rw [size, hu.1]
  rfl

variable {h : Hashtable T} {key k : Int}

theorem slot_some (hs : h.slot key = some i) :
    i < HASHTABLE_CAPACITY ∧ h.keys i = key ∧ h.used i = true := by
  obtain ⟨hi, hp⟩ := probe_some hs
  simp only [Bool.and_eq_true, beq_iff_eq] at hp
  exact ⟨hi, hp⟩

theorem slot_eq_none_iff :
    h.slot key = none ↔ ∀ i < HASHTABLE_CAPACITY, h.used i = true → h.keys i ≠ key := by
  rw [slot, probe_none_iff]
  refine forall₂_congr fun i _ => ?_
  cases h.used i <;> simp

theorem freeSlot_some (hs : h.freeSlot key = some i) :
    i < HASHTABLE_CAPACITY ∧ h.used i = false := by
  obtain ⟨hi, hp⟩ := probe_some hs
  exact ⟨hi, by simpa using hp⟩

theorem freeSlot_eq_none_iff :
    h.freeSlot key = none ↔ ∀ i < HASHTABLE_CAPACITY, h.used i = true := by
  rw [freeSlot, probe_none_iff]
  refine forall₂_congr fun i _ => ?_
  cases h.used i <;> simp

theorem Ok.slot_eq (ok : h.Ok) (hi : i < HASHTABLE_CAPACITY) (hu : h.used i = true) :
    h.slot (h.keys i) = some i := by
  apply probe_unique hi
  · simp [hu]
  · intro j hj hp
    simp only [Bool.and_eq_true, beq_iff_eq] at hp
    exact ok.inj j hj i hi hp.2 hu hp.1

theorem Ok.slot_iff (ok : h.Ok) :
    h.slot key = some i ↔ i < HASHTABLE_CAPACITY ∧ h.used i = true ∧ h.keys i = key := by
  constructor
  · intro hs
    obtain ⟨hi, hk, hu⟩ := slot_some hs
    exact ⟨hi, hu, hk⟩
  · rintro ⟨hi, hu, rfl⟩
    exact ok.slot_eq hi hu

theorem get_eq_none_iff : h.get key = none ↔ h.slot key = none := by
  rw [get, Option.map_eq_none_iff]

theorem add_full (hf : h.freeSlot key = none) (item : T) : h.add key item = (false, h) := by
  rw [add, hf]

theorem Ok.size_eq (ok : h.Ok) : h.size = flagged HASHTABLE_CAPACITY h.used := by
  rw [size, ok.count, Int.toNat_natCast]

/-- A table has a free slot exactly when it holds fewer items than its capacity. -/
theorem Ok.freeSlot_none_iff (ok : h.Ok) :
    h.freeSlot key = none ↔ h.size = HASHTABLE_CAPACITY := by
  rw [freeSlot_eq_none_iff, ok.size_eq, flagged_eq_cap_iff]

theorem Ok.size_le (ok : h.Ok) : h.size ≤ HASHTABLE_CAPACITY := by
  rw [ok.size_eq]
  exact flagged_le _ _

theorem Ok.add_fst (ok : h.Ok) (key : Int) (item : T) :
    (h.add key item).1 = true ↔ h.size < HASHTABLE_CAPACITY := by
  have hn : h.freeSlot key = none ↔ h.size = HASHTABLE_CAPACITY := ok.freeSlot_none_iff
  have hle := ok.size_le
  rw [add]
  cases hf : h.freeSlot key with
  | none => simp [hn.1 hf]
  | some i =>
    have hne : h.size ≠ HASHTABLE_CAPACITY := fun he => by rw [hn.2 he] at hf; cases hf
    simp only [true_iff]
    omega

theorem Ok.get_of_slot (ok : h.Ok) (hi : i < HASHTABLE_CAPACITY) (hu : h.used i = true)
    (hk : h.keys i = key) : h.get key = some (h.data i) := by
  rw [get, ok.slot_iff.2 ⟨hi, hu, hk⟩, Option.map_some]

theorem get_congr {h h' : Hashtable T}
    (hs : ∀ i < HASHTABLE_CAPACITY, (h'.keys i == k && h'.used i) = (h.keys i == k && h.used i))
    (hd : ∀ i, h.slot k = some i → h'.data i = h.data i) : h'.get k = h.get k := by
  have he : h'.slot k = h.slot k := probe_congr hs
  rw [get, get, he]
  cases hk : h.slot k with
  | none => rfl
  | some i => exact congrArg some (hd i hk)

theorem get_add_other (h : Hashtable T) (item : T) (hk : k ≠ key) :
    (h.add key item).2.get k = h.get k := by
  rw [add]
  cases hf : h.freeSlot key with
  | none => rfl
  | some i =>
    have hui := (freeSlot_some hf).2
    apply get_congr
    · intro j _
      by_cases hji : j = i
      · simp [hji, hui, Ne.symm hk]
      · simp only [Function.update_of_ne hji]
    · intro j hj
      apply Function.update_of_ne
      rintro rfl
      rw [(slot_some hj).2.2] at hui
      cases hui

theorem mem_add (hm : (h.add key item).2.get k ≠ none) : k = key ∨ h.get k ≠ none := by
  by_cases hk : k = key
  · exact .inl hk
  · rw [get_add_other _ _ hk] at hm
    exact .inr hm

/-- A counter above all keys is no key. -/
theorem fresh_of_lt (hkeys : ∀ k, h.get k ≠ none → k < key) : h.get key = none := by
  by_contra hg
  exact lt_irrefl _ (hkeys key hg)

/-- `add` with a free slot, for a table in any state. -/
theorem get_add (hnew : h.get key = none) (hf : h.freeSlot key ≠ none) (item : T) (k : Int) :
    (h.add key item).2.get k = if k = key then some item else h.get k := by
  split_ifs with hk
  · subst hk
    obtain ⟨i, hf⟩ := Option.ne_none_iff_exists'.1 hf
    obtain ⟨hi, hui⟩ := freeSlot_some hf
    rw [get_eq_none_iff, slot_eq_none_iff] at hnew
    have hs : slot { data := Function.update h.data i item
                     used := Function.update h.used i true
                     keys := Function.update h.keys i k
                     itemCount := h.itemCount + 1 } k = some i := by
      apply probe_unique hi
      · simp
      · intro j hj hp
        by_contra hji
        simp only [Function.update_of_ne hji, Bool.and_eq_true, beq_iff_eq] at hp
        exact hnew j hj hp.2 hp.1
    rw [add, hf, get, hs]
    exact congrArg some (Function.update_self ..)
  · exact h.get_add_other item hk

theorem get_remove_other (h : Hashtable T) (hk : k ≠ key) : (h.remove key).2.get k = h.get k := by
  rw [remove]
  cases hf : h.slot key with
  | none => rfl
  | some i =>
    refine get_congr (fun j _ => ?_) fun _ _ => rfl
    by_cases hji : j = i
    · simp [hji, (slot_some hf).2.1, Ne.symm hk]
    · simp only [Function.update_of_ne hji]

theorem Ok.add_spec (ok : h.Ok) (hnew : h.get key = none) (hsize : h.size < HASHTABLE_CAPACITY)
    (item : T) :
    (h.add key item).2.Ok ∧ (h.add key item).2.size = h.size + 1 ∧
      ∀ k, (h.add key item).2.get k = if k = key then some item else h.get k := by
  have hf : h.freeSlot key ≠ none := fun he => Nat.ne_of_lt hsize (ok.freeSlot_none_iff.1 he)
  have hget := get_add hnew hf item
  rw [get_eq_none_iff, slot_eq_none_iff] at hnew
  obtain ⟨i, hf⟩ := Option.ne_none_iff_exists'.1 hf
  obtain ⟨hi, hui⟩ := freeSlot_some hf
  rw [add, hf] at hget ⊢
  refine ⟨⟨?_, ?_⟩, ?_, hget⟩
  · intro a ha b hb hua hub hab
    by_cases hai : a = i <;> by_cases hbi : b = i
    · rw [hai, hbi]
    · simp only [hai, Function.update_self, Function.update_of_ne hbi] at hub hab
      exact absurd hab.symm (hnew b hb hub)
    · simp only [hbi, Function.update_self, Function.update_of_ne hai] at hua hab
      exact absurd hab (hnew a ha hua)
    · simp only [Function.update_of_ne hai, Function.update_of_ne hbi] at hua hub hab
      exact ok.inj a ha b hb hua hub hab
  · change h.itemCount + 1 = (flagged HASHTABLE_CAPACITY (Function.update h.used i true) : Int)
    rw [flagged_set hi hui, ok.count]
    rfl
  · rw [ok.size_eq, size, ok.count]
    exact Int.toNat_natCast_add_one

theorem Ok.add (ok : h.Ok) (hnew : h.get key = none) (item : T) : (h.add key item).2.Ok := by
  by_cases hsize : h.size < HASHTABLE_CAPACITY
  · exact (ok.add_spec hnew hsize item).1
  · have hf : h.freeSlot key = none :=
      ok.freeSlot_none_iff.2 (le_antisymm ok.size_le (not_lt.1 hsize))
    rw [add_full hf]
    exact ok

theorem Ok.size_add (ok : h.Ok) (hnew : h.get key = none) (item : T) :
    (h.add key item).2.size = min (h.size + 1) HASHTABLE_CAPACITY := by
  by_cases hsize : h.size < HASHTABLE_CAPACITY
  · rw [(ok.add_spec hnew hsize item).2.1, Nat.min_eq_left hsize]
  · have hfull : h.size = HASHTABLE_CAPACITY := le_antisymm ok.size_le (not_lt.1 hsize)
    rw [add_full (ok.freeSlot_none_iff.2 hfull), hfull, Nat.min_eq_right (Nat.le_succ _)]

/-- `add` of a new key, whether or not the table is full. -/
theorem Ok.get_add (ok : h.Ok) (hnew : h.get key = none) (item : T) (k : Int) :
    (h.add key item).2.get k =
      if k = key ∧ h.size < HASHTABLE_CAPACITY then some item else h.get k := by
  by_cases hsize : h.size < HASHTABLE_CAPACITY
  · rw [(ok.add_spec hnew hsize item).2.2]
    simp only [and_iff_left hsize]
  · have hf : h.freeSlot key = none :=
      ok.freeSlot_none_iff.2 (le_antisymm ok.size_le (not_lt.1 hsize))
    rw [add_full hf, if_neg fun hk => hsize hk.2]

theorem remove_absent (hs : h.get key = none) : h.remove key = (false, h) := by
  rw [remove, get_eq_none_iff.1 hs]

theorem mem_remove (hm : (h.remove key).2.get k ≠ none) : h.get k ≠ none := by
  by_cases hk : k = key
  · intro hn
    rw [remove_absent (hk ▸ hn)] at hm
    exact hm hn
  · rwa [get_remove_other h hk] at hm

theorem remove_fst (h : Hashtable T) (key : Int) : (h.remove key).1 = (h.get key).isSome := by
  rw [remove, get]
  cases h.slot key <;> rfl

theorem Ok.remove_spec (ok : h.Ok) (hs : h.get key ≠ none) :
    (h.remove key).2.Ok ∧ (h.remove key).2.size + 1 = h.size ∧
      ∀ k, (h.remove key).2.get k = if k = key then none else h.get k := by
  have hother : ∀ k ≠ key, (h.remove key).2.get k = h.get k := fun k => h.get_remove_other
  rw [remove] at hother ⊢
  cases hf : h.slot key with
  | none => exact absurd (get_eq_none_iff.2 hf) hs
  | some i =>
    rw [hf] at hother
    obtain ⟨hi, hki, hui⟩ := slot_some hf
    have hcount := flagged_clear hi hui
    have hne : ∀ j, Function.update h.used i false j = true → j ≠ i ∧ h.used j = true := by
      intro j hj
      by_cases hji : j = i
      · rw [hji, Function.update_self] at hj; cases hj
      · rw [Function.update_of_ne hji] at hj; exact ⟨hji, hj⟩
    refine ⟨⟨?_, ?_⟩, ?_, fun k => ?_⟩
    · intro a ha b hb hua hub hab
      exact ok.inj a ha b hb (hne a hua).2 (hne b hub).2 hab
    · change h.itemCount - 1 = (flagged HASHTABLE_CAPACITY (Function.update h.used i false) : Int)
      rw [ok.count]
      omega
    · change (h.itemCount - 1).toNat + 1 = h.itemCount.toNat
      rw [ok.count]
      omega
    · split_ifs with hk
      · rw [get_eq_none_iff, slot_eq_none_iff]
        intro j hj hu he
        obtain ⟨hji, huj⟩ := hne j hu
        exact hji (ok.inj j hj i hi huj hui (he.trans (hk.trans hki.symm)))
      · exact hother k hk

theorem Ok.remove (ok : h.Ok) (key : Int) : (h.remove key).2.Ok := by
  by_cases hs : h.get key = none
  · rw [remove_absent hs]
    exact ok
  · exact (ok.remove_spec hs).1

theorem Ok.get_remove (ok : h.Ok) (key k : Int) :
    (h.remove key).2.get k = if k = key then none else h.get k := by
  by_cases hs : h.get key = none
  · rw [remove_absent hs]
    split_ifs with he
    · rw [he, hs]
    · rfl
  · exact (ok.remove_spec hs).2.2 k

theorem slot_modify (h : Hashtable T) (key : Int) (f : T → T) (k : Int) :
    (h.modify key f).slot k = h.slot k := by
  rw [modify]
  cases h.slot key <;> rfl

theorem get_modify (h : Hashtable T) (key : Int) (f : T → T) (k : Int) :
    (h.modify key f).get k = if k = key then (h.get k).map f else h.get k := by
  rw [get, slot_modify, modify, get]
  cases hs : h.slot key with
  | none =>
    split_ifs with hk
    · rw [hk, hs]; rfl
    · rfl
  | some i =>
    split_ifs with hk
    · rw [hk, hs]
      exact congrArg some (Function.update_self ..)
    · cases hsk : h.slot k with
      | none => rfl
      | some j =>
        have hji : j ≠ i := by
          rintro rfl
          exact hk ((slot_some hsk).2.1.symm.trans (slot_some hs).2.1)
        exact congrArg some (Function.update_of_ne hji ..)

theorem modify_absent (hs : h.get key = none) (f : T → T) : h.modify key f = h := by
  rw [modify, get_eq_none_iff.1 hs]

theorem Ok.modify (ok : h.Ok) (key : Int) (f : T → T) : (h.modify key f).Ok := by
  rw [Hashtable.modify]
  cases h.slot key with
  | none => exact ok
  | some i => exact ⟨ok.inj, ok.count⟩

theorem size_modify (h : Hashtable T) (key : Int) (f : T → T) :
    (h.modify key f).size = h.size := by
  rw [Hashtable.modify]
  cases h.slot key <;> rfl

theorem Unused.get {h : Hashtable T} (hu : h.Unused) (key : Int) : h.get key = none := by
  rw [get_eq_none_iff, slot_eq_none_iff]
  intro i hi hui
  rw [hu.2 i hi] at hui
  cases hui

def All (P : T → Prop) (h : Hashtable T) : Prop :=
  ∀ i < HASHTABLE_CAPACITY, h.used i = true → P (h.data i)

variable {P : T → Prop}

theorem All.get {h : Hashtable T} (hall : h.All P) (hg : h.get key = some item) : P item := by
  obtain ⟨i, hs, rfl⟩ := Option.map_eq_some_iff.1 hg
  obtain ⟨hi, _, hu⟩ := slot_some hs
  exact hall i hi hu

theorem All.add (hall : h.All P) (hitem : P item) : (h.add key item).2.All P := by
  rw [Hashtable.add]
  cases h.freeSlot key with
  | none => exact hall
  | some i =>
    intro j hj hu
    by_cases hji : j = i
    · simpa [hji] using hitem
    · simp only [Function.update_of_ne hji] at hu ⊢
      exact hall j hj hu

theorem All.modify (hall : h.All P) (hf : ∀ x, P x → P (f x)) : (h.modify key f).All P := by
  rw [Hashtable.modify]
  cases h.slot key with
  | none => exact hall
  | some i =>
    intro j hj hu
    by_cases hji : j = i
    · subst hji
      simpa using hf _ (hall j hj hu)
    · simpa [Function.update_of_ne hji] using hall j hj hu

theorem Unused.all {h : Hashtable T} (hu : h.Unused) : h.All P := by
  intro i hi hui
  rw [hu.2 i hi] at hui
  cases hui

/-- The keys were handed out by a counter that is at `n` now. -/
structure Numbered (h : Hashtable T) (n : Int) : Prop where
  ok : h.Ok
  pos : 0 ≤ n
  keys : ∀ k, h.get k ≠ none → 0 ≤ k ∧ k < n

theorem Numbered.zeroed [Inhabited T] : (Hashtable.zeroed : Hashtable T).Numbered 0 where
  ok := zeroed_unused.ok
  pos := le_refl 0
  keys := fun k hk => absurd (zeroed_unused.get k) hk

theorem Numbered.fresh (hn : h.Numbered n) : h.get n = none :=
  fresh_of_lt fun k hk => (hn.keys k hk).2

theorem Numbered.get_add (hn : h.Numbered n) (item : T) :
    (h.add n item).2.get n = if h.size < HASHTABLE_CAPACITY then some item else none := by
  rw [hn.ok.get_add hn.fresh, hn.fresh]
  simp only [true_and]

theorem Numbered.add (hn : h.Numbered n) (item : T) : (h.add n item).2.Numbered (n + 1) where
  ok := hn.ok.add hn.fresh item
  pos := by
    have hpos := hn.pos
    omega
  keys := by
    intro k hk
    have hpos := hn.pos
    rcases mem_add hk with rfl | hk
    · omega
    · have hlt := hn.keys k hk
      omega

theorem Numbered.remove (hn : h.Numbered n) (key : Int) : (h.remove key).2.Numbered n :=
  ⟨hn.ok.remove key, hn.pos, fun k hk => hn.keys k (mem_remove hk)⟩

theorem Numbered.modify (hn : h.Numbered n) (key : Int) (f : T → T) :
    (h.modify key f).Numbered n where
  ok := hn.ok.modify key f
  pos := hn.pos
  keys := by
    intro k hk
    rw [get_modify] at hk
    split_ifs at hk
    · exact hn.keys k (by simpa using hk)
    · exact hn.keys k hk

/-- A search for the key meets a free slot before any slot with the key, or meets the item. -/
def Takes (h : Hashtable T) (key : Int) (item : T) : Prop :=
  ∃ i, probe HASHTABLE_CAPACITY (hash key % HASHTABLE_CAPACITY)
      (fun i => !h.used i || h.keys i == key) = some i ∧
    (h.used i = false ∨ h.data i = item)

theorem get_add_self_iff {item : T} :
    (h.add key item).2.get key = some item ↔ h.Takes key item := by
  cases hf : h.freeSlot key with
  | none =>
    have hused := freeSlot_eq_none_iff.1 hf
    have hslot : h.slot key = probe HASHTABLE_CAPACITY (hash key % HASHTABLE_CAPACITY)
        fun i => !h.used i || h.keys i == key := by
      apply probe_congr
      intro i hi
      simp [hused i hi]
    rw [add_full hf, get, Option.map_eq_some_iff, hslot, Takes]
    refine exists_congr fun i => and_congr_right fun hi => ?_
    simp [hused i (probe_some hi).1]
  | some f =>
    have hfree := (freeSlot_some hf).2
    have hslot : (h.add key item).2.slot key =
        probe HASHTABLE_CAPACITY (hash key % HASHTABLE_CAPACITY)
          fun i => !h.used i || h.keys i == key := by
      have hmark : (h.add key item).2.slot key =
          probe HASHTABLE_CAPACITY (hash key % HASHTABLE_CAPACITY)
            fun j => j == f || (h.keys j == key && h.used j) := by
        rw [add, hf]
        apply probe_congr
        intro j _
        by_cases hj : j = f
        · simp [hj]
        · simp [hj]
      rw [hmark, probe_mark hf]
      apply probe_congr
      intro j _
      cases h.used j <;> simp
    have hdata : (h.add key item).2.data = Function.update h.data f item := by rw [add, hf]
    rw [get, Option.map_eq_some_iff, Takes, hdata, hslot]
    refine exists_congr fun i => and_congr_right fun hi => ?_
    by_cases hif : i = f
    · simp [hif, hfree]
    · have hu := (slot_some (hslot.trans hi)).2.2
      have hused : (h.add key item).2.used = Function.update h.used f true := by rw [add, hf]
      rw [hused, Function.update_of_ne hif] at hu
      simp [hif, hu]

end Hashtable
end Tupai
