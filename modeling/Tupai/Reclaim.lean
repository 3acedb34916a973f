import Tupai.Frees

namespace Tupai
open Lib
set_option autoImplicit true

def poolDeallocs (w : Nat) (pool : Pool) (mem : Mem) (ptrs : List Nat) : Option Mem :=
  ptrs.foldlM (poolDealloc w pool) mem

def SameEntries (w : Nat) (pool : Pool) (mem mem' : Mem) : Prop :=
  ∀ i < 2 ^ w, poolGet w pool mem i = poolGet w pool mem' i

structure Freed (w : Nat) (pool : Pool) (C : Nat → Prop) (mem mem' : Mem) : Prop where
  unused : ∀ i < 2 ^ w, C i → poolGet w pool mem' i = .UNUSED
  rest : ∀ i < 2 ^ w, ¬ C i → poolGet w pool mem' i = poolGet w pool mem i

def Covered (ss : List Segment) (i : Nat) : Prop := ∃ s ∈ ss, s.Covers i

variable {w : Nat} {pool : Pool} {r : PoolRun}

theorem covered_cons : Covered (s :: ss) i ↔ s.Covers i ∨ Covered ss i :=
  List.exists_mem_cons_iff ..

theorem Freed.trans (h₁ : Freed w pool C mem mem₁) (h₂ : Freed w pool D mem₁ mem₂)
    (hE : ∀ i, E i ↔ C i ∨ D i) : Freed w pool E mem mem₂ where
  unused i hi he := by
    by_cases hd : D i
    · exact h₂.unused i hi hd
    · rw [h₂.rest i hi hd]
      exact h₁.unused i hi (((hE i).1 he).resolve_right hd)
  rest i hi he := by
    obtain ⟨hc, hd⟩ := not_or.1 (mt (hE i).2 he)
    rw [h₂.rest i hi hd, h₁.rest i hi hc]

/-- The order of the frees does not matter. -/
theorem Freed.same (h₁ : Freed w pool C mem mem₁) (h₂ : Freed w pool D mem mem₂)
    (hiff : ∀ i, C i ↔ D i) : SameEntries w pool mem₁ mem₂ := by
  intro i hi
  by_cases hc : C i
  · rw [h₁.unused i hi hc, h₂.unused i hi ((hiff i).1 hc)]
  · rw [h₁.rest i hi hc, h₂.rest i hi (mt (hiff i).2 hc)]

theorem freed_of_get {s : Segment} (hget : ∀ i < 2 ^ w, poolGet w pool mem' i =
    if s.start ≤ i ∧ i < s.stop then .UNUSED else poolGet w pool mem i) :
    Freed w pool s.Covers mem mem' where
  unused i hi hc := (hget i hi).trans (if_pos hc)
  rest i hi hc := (hget i hi).trans (if_neg hc)

theorem poolDeallocs_spec (hp : Pool.Placed w pool) (ss rest : List Segment)
    (h : Records blockMarking pool.blockCount (ss ++ rest) (poolGet w pool mem)) :
    ∃ mem', poolDeallocs w pool mem (ss.map pool.ptr) = some mem' ∧
      Freed w pool (Covered ss) mem mem' ∧
      Records blockMarking pool.blockCount rest (poolGet w pool mem') := by
  induction ss generalizing mem with
  | nil =>
    refine ⟨mem, rfl, ⟨fun i _ hc => ?_, fun _ _ _ => rfl⟩, h⟩
    exact hc.elim fun s hs => absurd hs.1 List.not_mem_nil
  | cons s ss ih =>
    obtain ⟨mem₁, hd, hget, hrest⟩ := poolDealloc_records hp List.mem_cons_self h
    obtain ⟨mem', hds, hfreed, hrec⟩ := ih (hrest _ (.refl _))
    refine ⟨mem', ?_, (freed_of_get hget).trans hfreed fun i => covered_cons, hrec⟩
    rw [List.map_cons, poolDeallocs, List.foldlM_cons, Pool.ptr, hd]
    exact hds

theorem PoolRun.Sound.clear (h : r.Sound w pool) (hp : Pool.Placed w pool)
    (hperm : r.live.Perm ss) : ∃ mem', poolDeallocs w pool r.mem (ss.map pool.ptr) = some mem' ∧
      ∀ i < pool.blockCount, poolGet w pool mem' i = .UNUSED := by
  obtain ⟨mem', hd, _, hrec⟩ := poolDeallocs_spec hp ss []
    (by rw [List.append_nil]; exact h.perm hperm)
  exact ⟨mem', hd, fun i hi => hrec.free i hi (List.forall_mem_nil _)⟩

end Tupai
