import Tupai.Layout
import Tupai.Reclaim
import Tupai.Str

namespace Tupai
open Lib
set_option autoImplicit true

def poolScanGets (w : Nat) (pool : Pool) (mem : Mem) : (left i : Nat) → List Nat
  | 0, _ => []
  | left + 1, i =>
    if i = pool.blockCount then []
    else i :: if poolGet w pool mem i ≠ .UNUSED then [] else poolScanGets w pool mem left (i + 1)

def poolSearchGets (w : Nat) (pool : Pool) (mem : Mem) (needed : Nat) : (fuel i : Nat) → List Nat
  | 0, _ => []
  | fuel + 1, i =>
    if i < pool.blockCount then
      i :: if poolGet w pool mem i = .UNUSED then
        poolScanGets w pool mem (wrap w (i + needed) - i) i ++
          match poolScan w pool mem (wrap w (i + needed) - i) i with
          | .tosmall j => poolSearchGets w pool mem needed fuel (j + 1)
          | _ => []
      else poolSearchGets w pool mem needed fuel (i + 1)
    else []

/-- The last of `n` blocks that is in use. -/
def displayMax (w : Nat) (pool : Pool) (mem : Mem) (n : Nat) : Nat :=
  (List.range n).foldl (fun max i =>
    match poolGet w pool mem i with
    | .HEAD | .TAIL => i
    | _ => max) 0

def displayChar : BlockStatus → Byte
  | .HEAD => 0x48#8
  | .TAIL => 0x54#8
  | .UNUSED => 0x2E#8
  | .ERROR => 0x3F#8

/-- The characters that the second loop of `pool_display` passes to `util::log`, one by one, if the
map stays as it is. -/
def displayChars (w : Nat) (pool : Pool) (mem : Mem) (n : Nat) : Chars :=
  (List.range (min n (displayMax w pool mem n))).map fun i => displayChar (poolGet w pool mem i)

/-- The blocks that `pool_display` passes to `pool_get`. -/
def poolDisplayAccesses (w : Nat) (pool : Pool) (mem : Mem) (n : Nat) : List Nat :=
  List.range n ++ List.range (min n (displayMax w pool mem n))

/-- The number of blocks that `kmem_log` passes for a pool of this size. -/
def logBlocks (size blockSize : Nat) : Nat := size / blockSize

theorem poolScan_congr (h : ∀ j ∈ poolScanGets w pool mem left i,
    poolGet w pool mem' j = poolGet w pool mem j) :
    poolScan w pool mem' left i = poolScan w pool mem left i := by
  induction left generalizing i with
  | zero => rfl
  | succ left ih =>
    rw [poolScanGets] at h
    rw [poolScan, poolScan]
    split_ifs at h with hend hget
    · rw [if_pos hend, if_pos hend]
    · rw [h i List.mem_cons_self, if_neg hend, if_neg hend, if_pos hget, if_pos hget]
    · rw [h i List.mem_cons_self, if_neg hend, if_neg hend, if_neg hget, if_neg hget]
      exact ih fun j hj => h j (List.mem_cons_of_mem _ hj)

theorem poolSearch_congr {needed : Nat} (h : ∀ j ∈ poolSearchGets w pool mem needed fuel i,
    poolGet w pool mem' j = poolGet w pool mem j) :
    poolSearch w pool mem' needed fuel i = poolSearch w pool mem needed fuel i := by
  induction fuel generalizing i with
  | zero => rfl
  | succ fuel ih =>
    rw [poolSearchGets] at h
    rw [poolSearch, poolSearch]
    split_ifs at h with hi hget
    · obtain ⟨hfirst, hrest⟩ := List.forall_mem_cons.1 h
      obtain ⟨hscan, hnext⟩ := List.forall_mem_append.1 hrest
      rw [if_pos hi, if_pos hi, hfirst, if_pos hget, if_pos hget, poolScan_congr hscan]
      split
      · rfl
      · next j hj =>
        rw [hj] at hnext
        exact ih hnext
      · rfl
    · obtain ⟨hfirst, hrest⟩ := List.forall_mem_cons.1 h
      rw [if_pos hi, if_pos hi, hfirst, if_neg hget, if_neg hget]
      exact ih hrest
    · rw [if_neg hi, if_neg hi]

theorem displayMax_congr (h : ∀ i < n, poolGet w pool mem' i = poolGet w pool mem i) :
    displayMax w pool mem' n = displayMax w pool mem n := by
  rw [displayMax, displayMax]
  refine List.foldl_ext _ _ _ fun max i hi => ?_
  rw [h i (List.mem_range.1 hi)]

theorem displayChars_congr (h : ∀ i ∈ poolDisplayAccesses w pool mem n,
    poolGet w pool mem' i = poolGet w pool mem i) :
    displayChars w pool mem' n = displayChars w pool mem n := by
  obtain ⟨hall, hshown⟩ := List.forall_mem_append.1 h
  rw [displayChars, displayChars, displayMax_congr fun i hi => hall i (List.mem_range.2 hi),
    List.map_congr_left fun i hi => congrArg displayChar (hshown i hi)]

variable {w : Nat} {pool : Pool} {r : PoolRun}

/-- A region of a multiple of the block size has no room for as many blocks as are displayed. -/
theorem logBlocks_le_iff (hsize : size < 2 ^ 60) (hbs : blockSize < 2 ^ 60) (hpos : 0 < blockSize)
    (hw : size < 2 ^ w) : logBlocks size blockSize ≤ blocksFor w size blockSize ↔
      logBlocks size blockSize ≤ 4 * (size % blockSize) := by
  have hdiv := Nat.div_add_mod size blockSize
  rw [blocksFor_eq hsize hbs hpos hw, ← fits_iff, logBlocks, mapBytes]
  omega

end Tupai
