import Mathlib.Data.List.Perm.Basic
import Mathlib.Logic.Function.Basic
import Tupai.Lib.Transition

namespace Tupai.Lib
set_option autoImplicit true

/-- A block of cells together with what its user put there. -/
structure Block (α : Type*) where
  start : Nat
  len : Nat
  data : Nat → α

namespace Block

def stop (b : Block α) : Nat := b.start + b.len

/-- Also blocks without cells start at different places. -/
def Apart (b c : Block α) : Prop := b.start ≠ c.start ∧ (b.stop ≤ c.start ∨ c.stop ≤ b.start)

def put (b : Block α) (i : Nat) (x : α) : Block α := { b with data := Function.update b.data i x }

/-- The cells of memory have what was put there. -/
def Holds (mem : Nat → α) (b : Block α) : Prop := ∀ i < b.len, mem (b.start + i) = b.data i

/-- What a pointer and a size say about the block. -/
def extent (b : Block α) : Nat × Nat := (b.start, b.len)

end Block

/-- A heap in the region from `lo` to `hi`: blocks are taken apart from all others, written, and
given back. -/
inductive BlockStep (lo hi : Nat) : List (Block α) → List (Block α) → Prop where
  | take (b : Block α) : lo ≤ b.start → b.stop ≤ hi → (∀ c ∈ bs, b.Apart c) →
      BlockStep lo hi bs (b :: bs)
  | put (b : Block α) (i : Nat) (x : α) : bs.Perm (b :: rest) → i < b.len →
      BlockStep lo hi bs (b.put i x :: rest)
  | give (b : Block α) : bs.Perm (b :: rest) → BlockStep lo hi bs rest

variable {bs : List (Block α)} {mem mem' : Nat → α}

theorem Block.Apart.symm {b c : Block α} (h : b.Apart c) : c.Apart b := ⟨h.1.symm, Or.symm h.2⟩

theorem blocks_apart (h : Reachable (· = []) (BlockStep lo hi) bs) : bs.Pairwise Block.Apart := by
  apply h.invariant
  · rintro _ rfl
    exact .nil
  · intro bs bs' hs ht
    cases ht with
    | take b _ _ hnew => exact List.pairwise_cons.2 ⟨hnew, hs⟩
    | put b i x hperm _ =>
      have hsplit := List.pairwise_cons.1 ((hperm.pairwise_iff Block.Apart.symm).1 hs)
      exact List.pairwise_cons.2 ⟨fun c hc => hsplit.1 c hc, hsplit.2⟩
    | give b hperm =>
      exact (List.pairwise_cons.1 ((hperm.pairwise_iff Block.Apart.symm).1 hs)).2

theorem blocks_inside (h : Reachable (· = []) (BlockStep lo hi) bs) :
    ∀ b ∈ bs, lo ≤ b.start ∧ b.stop ≤ hi := by
  apply h.invariant
  · rintro _ rfl
    exact List.forall_mem_nil _
  · intro bs bs' hs ht
    cases ht with
    | take b hlo hhi _ => exact List.forall_mem_cons.2 ⟨⟨hlo, hhi⟩, hs⟩
    | put b i x hperm _ =>
      refine List.forall_mem_cons.2 ⟨hs b (hperm.mem_iff.2 List.mem_cons_self), fun c hc => ?_⟩
      exact hs c (hperm.mem_iff.2 (List.mem_cons_of_mem b hc))
    | give b hperm => exact fun c hc => hs c (hperm.mem_iff.2 (List.mem_cons_of_mem b hc))

/-- The other blocks are where they were when one is taken out. -/
theorem exists_block {l : List (Nat × Nat)} (h : l.Perm (bs.map Block.extent)) (hx : x ∈ l) :
    ∃ b rest, b.extent = x ∧ bs.Perm (b :: rest) := by
  obtain ⟨b, hb, he⟩ := List.mem_map.1 (h.mem_iff.1 hx)
  obtain ⟨before, after, rfl⟩ := List.append_of_mem hb
  exact ⟨b, before ++ after, he, List.perm_middle⟩

theorem Block.Holds.congr {b : Block α} (h : b.Holds mem)
    (hm : ∀ a, b.start ≤ a → a < b.stop → mem' a = mem a) : b.Holds mem' := by
  intro i hi
  rw [← h i hi]
  exact hm _ (Nat.le_add_right ..) (Nat.add_lt_add_left hi b.start)

/-- A write to one block shows in it, and in no block that is apart. -/
theorem Block.Holds.put {b : Block α} (h : b.Holds mem) (i : Nat) (x : α) :
    (b.put i x).Holds (Function.update mem (b.start + i) x) := by
  intro j hj
  by_cases hji : j = i
  · subst hji
    have hdata : (b.put j x).data j = x := Function.update_self ..
    exact (Function.update_self ..).trans hdata.symm
  · have hne : b.start + j ≠ b.start + i := fun he => hji (Nat.add_left_cancel he)
    have hdata : (b.put i x).data j = b.data j := Function.update_of_ne hji ..
    exact (Function.update_of_ne hne ..).trans ((h j hj).trans hdata.symm)

theorem Block.Holds.put_other {b c : Block α} (h : c.Holds mem) (hapart : b.Apart c)
    (hi : i < b.len) (x : α) : c.Holds (Function.update mem (b.start + i) x) := by
  refine h.congr fun a hlo hhi => Function.update_of_ne ?_ ..
  have hbc := hapart.2
  rw [Block.stop, Block.stop] at hbc
  rw [Block.stop] at hhi
  omega

end Tupai.Lib
