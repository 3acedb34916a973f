import Tupai.Heap
import Mathlib.Order.Bounds.Basic

namespace Tupai
open Lib
set_option autoImplicit true

/-- From `start` on the pool has `k` unused blocks. -/
structure FreeRun (w : Nat) (pool : Pool) (mem : Mem) (k start : Nat) : Prop where
  inside : start + k ≤ pool.blockCount
  unused : ∀ i, start ≤ i → i < start + k → poolGet w pool mem i = .UNUSED

/-- A search finds the first place, if there is one. -/
def Search.First (P : Nat → Prop) : Search → Prop
  | .found start => IsLeast {s | P s} start
  | .failed | .panic => ∀ s, ¬ P s

/-- Where the pool has a run of blocks for a request, `pool_alloc` takes the first one; where it
has none, there is no pointer and no change. -/
structure FirstFit (w : Nat) (pool : Pool) (mem : Mem) (n : Nat) : Prop where
  fits : (∃ s, FreeRun w pool mem (pool.blocks n) s) →
    ∃ start mem', IsLeast {s | FreeRun w pool mem (pool.blocks n) s} start ∧
      poolAlloc w pool mem n = some (wrap w (pool.body + start * pool.blockSize), mem') ∧
      Allocated w pool mem mem' n start
  full : (∀ s, ¬ FreeRun w pool mem (pool.blocks n) s) →
    poolAlloc w pool mem n = none ∨ poolAlloc w pool mem n = some (0, mem)

theorem poolScan_tosmall (h : poolScan w pool mem left i = .tosmall j) :
    i ≤ j ∧ j < i + left ∧ poolGet w pool mem j ≠ .UNUSED := by
  induction left generalizing i with
  | zero => cases h
  | succ left ih =>
    rw [poolScan] at h
    split_ifs at h with hend hget
    · cases h
      exact ⟨Nat.le_refl _, by omega, hget⟩
    · obtain ⟨hle, hlt, hused⟩ := ih h
      exact ⟨Nat.le_of_succ_le hle, by omega, hused⟩

theorem poolScan_panic (h : poolScan w pool mem left i = .panic) (hi : i ≤ pool.blockCount) :
    pool.blockCount < i + left := by
  induction left generalizing i with
  | zero => cases h
  | succ left ih =>
    rw [poolScan] at h
    split_ifs at h with hend hget
    · omega
    · have hlt := ih h (by omega)
      omega

/-- No run starts at or shortly before a used block. -/
theorem not_freeRun_of_used (hskip : ∀ s < i, ¬ FreeRun w pool mem k s)
    (hused : poolGet w pool mem j ≠ .UNUSED) (hj : j < i + k) (s : Nat) (hs : s < j + 1) :
    ¬ FreeRun w pool mem k s := by
  intro hrun
  rcases Nat.lt_or_ge s i with hlt | hge
  · exact hskip s hlt hrun
  · exact hused (hrun.unused j (by omega) (by omega))

theorem not_freeRun_of_end (hskip : ∀ s < i, ¬ FreeRun w pool mem k s)
    (hend : pool.blockCount < i + k) (s : Nat) : ¬ FreeRun w pool mem k s := by
  intro hrun
  rcases Nat.lt_or_ge s i with hlt | hge
  · exact hskip s hlt hrun
  · have hin := hrun.inside
    omega

/-- The search skips no place. Without a block to look for it takes the first unused one. -/
theorem poolSearch_first {needed : Nat} (hroom : pool.blockCount + needed ≤ 2 ^ w)
    (hfuel : pool.blockCount ≤ i + fuel)
    (hskip : ∀ s < i, ¬ FreeRun w pool mem (max needed 1) s) :
    (poolSearch w pool mem needed fuel i).First (FreeRun w pool mem (max needed 1)) := by
  induction fuel generalizing i with
  | zero => exact not_freeRun_of_end hskip (by omega)
  | succ fuel ih =>
    rw [poolSearch]
    split_ifs with hi hget
    · rw [wrap_of_lt (by omega), Nat.add_sub_cancel_left]
      cases hscan : poolScan w pool mem needed i with
      | fit =>
        obtain ⟨hin, hunused⟩ := poolScan_fit hscan (Nat.le_of_lt hi)
        refine ⟨⟨by omega, fun j hlo hhi => ?_⟩, fun s hs => ?_⟩
        · rcases Nat.eq_or_lt_of_le hlo with he | hlt
          · rw [← he, hget]
          · exact hunused j hlo (by omega)
        · by_contra hlt
          exact hskip s (Nat.lt_of_not_le hlt) hs
      | tosmall j =>
        obtain ⟨hle, hlt, hused⟩ := poolScan_tosmall hscan
        exact ih (by omega) (not_freeRun_of_used hskip hused (by omega))
      | panic =>
        have hend := poolScan_panic hscan (Nat.le_of_lt hi)
        exact not_freeRun_of_end hskip (by omega)
    · exact ih (by omega) (not_freeRun_of_used hskip hget (by omega))
    · exact not_freeRun_of_end hskip (by omega)

/-- `pool_alloc` is a complete first fit. -/
theorem poolAlloc_firstFit (h2 : 2 ≤ pool.blockSize)
    (hcount : pool.blockSize * pool.blockCount < 2 ^ w) (hn : n + pool.blockSize ≤ 2 ^ w) :
    FirstFit w pool mem n := by
  have hc : 2 * pool.blockCount ≤ pool.blockSize * pool.blockCount := Nat.mul_le_mul_right _ h2
  have hb := Pool.blocks_le h2 hn
  have hroom : pool.blockCount + pool.blocks n ≤ 2 ^ w := by omega
  have hneeded := Pool.needed (Nat.lt_of_lt_of_le Nat.two_pos h2) hn
  have hfirst : (poolSearch w pool mem (pool.blocks n) pool.blockCount 0).First
      (FreeRun w pool mem (max (pool.blocks n) 1)) :=
    poolSearch_first hroom (by omega) fun s hs => absurd hs (Nat.not_lt_zero s)
  rw [pool.max_blocks n] at hfirst
  cases hs : poolSearch w pool mem (pool.blocks n) pool.blockCount 0 with
  | found start =>
    rw [hs] at hfirst
    have hmarked := poolSearch_marked hroom hs
    rw [pool.max_blocks n] at hmarked
    have hlt : start * pool.blockSize ≤ pool.blockSize * pool.blockCount := by
      rw [Nat.mul_comm]
      exact Nat.mul_le_mul_left _ (Nat.le_of_lt (poolSearch_found hs).1)
    refine ⟨fun _ => ⟨start, _, hfirst, ?_, hmarked.allocated⟩, fun hno => ?_⟩
    · have hptr : wrap w (start * pool.blockSize) = start * pool.blockSize :=
        wrap_of_lt (by omega)
      rw [poolAlloc, hneeded, hs, ← hptr]
    · exact absurd hfirst.1 (hno start)
  | failed =>
    rw [hs] at hfirst
    refine ⟨fun hrun => hrun.elim fun s h => absurd h (hfirst s), fun _ => .inr ?_⟩
    rw [poolAlloc, hneeded, hs]
  | panic =>
    rw [hs] at hfirst
    refine ⟨fun hrun => hrun.elim fun s h => absurd h (hfirst s), fun _ => .inl ?_⟩
    rw [poolAlloc, hneeded, hs]

def holedPool : Mem := poolSet 8 smallPool (fun _ => 0x55) 1 .HEAD

theorem poolAlloc_firstFit_holed : (poolAlloc 8 smallPool holedPool 3).map Prod.fst = some 20 ∧
    FirstFit 8 smallPool holedPool 3 :=
  ⟨by decide, poolAlloc_firstFit (by decide) (by decide) (by decide)⟩

/-- The blocks that `pool_alloc` passes to `pool_set`, in order. -/
def poolMarks (w : Nat) (pool : Pool) (mem : Mem) (n : Nat) : List Nat :=
  let needed := alignCeiling w n pool.blockSize / pool.blockSize
  match poolSearch w pool mem needed pool.blockCount 0 with
  | .found start => start :: (List.range' 1 (needed - 1)).map fun i => wrap w (start + i)
  | _ => []

def markRun (w : Nat) (pool : Pool) : List Nat → Mem → Mem
  | [], mem => mem
  | start :: tail, mem =>
    tail.foldl (fun mem i => poolSet w pool mem i .TAIL) (poolSet w pool mem start .HEAD)

theorem markTail_eq (left i : Nat) (mem : Mem) : markTail w pool start left i mem =
    ((List.range' i left).map fun i => wrap w (start + i)).foldl
      (fun mem i => poolSet w pool mem i .TAIL) mem := by
  induction left generalizing i mem with
  | zero => rfl
  | succ left ih =>
    rw [markTail, ih, List.range'_succ]
    rfl

/-- All that `pool_alloc` does to memory is to mark these blocks. -/
theorem poolAlloc_marks (h : poolAlloc w pool mem n = some (p, mem')) :
    mem' = markRun w pool (poolMarks w pool mem n) mem := by
  rw [poolAlloc] at h
  rw [poolMarks]
  dsimp only at h ⊢
  split at h
  · cases h
  · next hs =>
    cases h
    rw [hs]
    rfl
  · next start hs =>
    cases h
    rw [hs]
    exact markTail_eq ..

/-- A pointer other than `nullptr` stands for at least `n` bytes of marked blocks. -/
def AllocCovers (w : Nat) (pool : Pool) (mem : Mem) (n : Nat) : Prop :=
  ∀ p mem', poolAlloc w pool mem n = some (p, mem') → p ≠ 0 →
    n ≤ (poolMarks w pool mem n).length * pool.blockSize

/-- The request does not exceed the last multiple of the block size that a `size_t` holds, or the
first unused block of the pool, if there is one, lies at `nullptr`. -/
def AllocRoom (w : Nat) (pool : Pool) (mem : Mem) (n : Nat) : Prop :=
  n ≤ pool.blockSize * ((2 ^ w - 1) / pool.blockSize) ∨
    ∀ s, IsLeast {i | FreeRun w pool mem 1 i} s →
      wrap w (pool.body + wrap w (s * pool.blockSize)) = 0

variable {pool : Pool} {mem : Mem}

theorem Pool.le_blocks_mul (hpos : 0 < pool.blockSize) (n : Nat) :
    n ≤ pool.blocks n * pool.blockSize := by
  have hlt := Nat.lt_mul_div_succ (max n 1 - 1) hpos
  rw [Pool.blocks, Nat.mul_comm]
  omega

theorem blocksNeeded_of_le (hpos : 0 < pool.blockSize)
    (hn : n ≤ pool.blockSize * ((2 ^ w - 1) / pool.blockSize)) :
    alignCeiling w n pool.blockSize / pool.blockSize = pool.blocks n := by
  have hq : pool.blockSize * ((2 ^ w - 1) / pool.blockSize) ≤ 2 ^ w - 1 := Nat.mul_div_le _ _
  by_cases h0 : n = 0
  · subst h0
    rw [alignCeiling, if_pos rfl, Nat.div_self hpos, Pool.blocks, Nat.zero_max, Nat.sub_self,
      Nat.zero_div]
  · have hdiv : (n - 1) / pool.blockSize < (2 ^ w - 1) / pool.blockSize := by
      rw [Nat.div_lt_iff_lt_mul hpos, Nat.mul_comm]
      omega
    have hmul := Nat.mul_le_mul_left pool.blockSize (Nat.succ_le_of_lt hdiv)
    rw [Nat.mul_succ] at hmul
    rw [alignCeiling, if_neg h0, wrap_of_lt (n := pool.blockSize * _) (by omega),
      wrap_of_lt (by omega), Nat.add_mul_div_left _ _ hpos, Nat.div_self hpos, Pool.blocks,
      Nat.max_eq_left (by omega), Nat.add_comm]

/-- Beyond it the number of blocks wraps to 0. -/
theorem blocksNeeded_of_gt (hn : pool.blockSize * ((2 ^ w - 1) / pool.blockSize) < n)
    (hlt : n < 2 ^ w) (hpos : 0 < pool.blockSize) (hbs : pool.blockSize < 2 ^ w) :
    alignCeiling w n pool.blockSize / pool.blockSize = 0 := by
  have hq : pool.blockSize * ((2 ^ w - 1) / pool.blockSize) ≤ 2 ^ w - 1 := Nat.mul_div_le _ _
  have hq' : 2 ^ w - 1 < pool.blockSize * ((2 ^ w - 1) / pool.blockSize) + pool.blockSize :=
    Nat.lt_mul_div_succ (2 ^ w - 1) hpos
  have hdiv : (n - 1) / pool.blockSize = (2 ^ w - 1) / pool.blockSize := by
    apply Nat.le_antisymm (Nat.div_le_div_right (by omega))
    rw [Nat.le_div_iff_mul_le hpos, Nat.mul_comm]
    omega
  rw [alignCeiling, if_neg (by omega), hdiv, wrap_of_lt (n := pool.blockSize * _) (by omega), wrap,
    Nat.mod_eq_sub_mod (by omega), Nat.mod_eq_of_lt (by omega)]
  exact Nat.div_eq_of_lt (by omega)

theorem length_poolMarks (hs : poolSearch w pool mem
      (alignCeiling w n pool.blockSize / pool.blockSize) pool.blockCount 0 = .found start) :
    (poolMarks w pool mem n).length =
      max (alignCeiling w n pool.blockSize / pool.blockSize) 1 := by
  rw [poolMarks, hs]
  dsimp only
  rw [List.length_cons, List.length_map, List.length_range']
  omega

theorem poolSearch_zero (hcount : pool.blockCount < 2 ^ w) :
    (poolSearch w pool mem 0 pool.blockCount 0).First (FreeRun w pool mem 1) :=
  poolSearch_first (Nat.le_of_lt hcount) (by omega) fun s hs => absurd hs (Nat.not_lt_zero s)

/-- An allocation is long enough exactly as long as the request can be rounded up. -/
theorem allocCovers_iff (h2 : 2 ≤ pool.blockSize) (hbs : pool.blockSize < 2 ^ w)
    (hcount : pool.blockCount < 2 ^ w) (hn : n < 2 ^ w) :
    AllocCovers w pool mem n ↔ AllocRoom w pool mem n := by
  have hpos : 0 < pool.blockSize := Nat.lt_of_lt_of_le Nat.two_pos h2
  have hzero : (poolSearch w pool mem 0 pool.blockCount 0).First (FreeRun w pool mem 1) :=
    poolSearch_zero hcount
  constructor
  · intro h
    refine or_iff_not_imp_left.2 fun hbig s hs => ?_
    have hneeded := blocksNeeded_of_gt (Nat.lt_of_not_le hbig) hn hpos hbs
    by_contra hptr
    cases hfound : poolSearch w pool mem 0 pool.blockCount 0 with
    | failed | panic =>
      rw [hfound] at hzero
      exact hzero s hs.1
    | found start =>
      rw [hfound] at hzero
      rw [hs.unique hzero] at hptr
      have hcover := h _ _ (by rw [poolAlloc, hneeded, hfound]) hptr
      rw [length_poolMarks (by rw [hneeded, hfound]), hneeded, Nat.zero_max, Nat.one_mul] at hcover
      have hone : 1 ≤ (2 ^ w - 1) / pool.blockSize := Nat.div_pos (by omega) hpos
      have hle := Nat.mul_le_mul_left pool.blockSize hone
      omega
  · intro h p mem' ha hp
    rcases poolAlloc_cases ha with ⟨hnull, _⟩ | ⟨start, hs, rfl, rfl⟩
    · exact absurd hnull hp
    · rw [length_poolMarks hs]
      by_cases hle : n ≤ pool.blockSize * ((2 ^ w - 1) / pool.blockSize)
      · rw [blocksNeeded_of_le hpos hle]
        exact (Pool.le_blocks_mul hpos n).trans (Nat.mul_le_mul_right _ (Nat.le_max_left ..))
      · have hneeded := blocksNeeded_of_gt (Nat.lt_of_not_le hle) hn hpos hbs
        rw [hneeded] at hs
        rw [hs] at hzero
        exact absurd (h.resolve_left hle start hzero) hp

theorem allocCovers_holed : AllocCovers 8 smallPool holedPool 3 :=
  (allocCovers_iff (by decide) (by decide) (by decide) (by decide)).2 (.inl (by decide))

/-- The first 256 bytes above 1 MiB in blocks of 64, all unused. -/
def emptyPool : Pool := ⟨0x100100, 0x100000, 64, 4⟩

/-- The largest request is rounded up to 0, and gets one block. -/
theorem not_allocCovers :
    (∃ mem, poolAlloc 64 emptyPool (fun _ => 0x55) (2 ^ 64 - 1) = some (0x100000, mem)) ∧
      ¬ AllocCovers 64 emptyPool (fun _ => 0x55) (2 ^ 64 - 1) :=
  ⟨⟨_, rfl⟩, fun h => absurd (h 0x100000 _ rfl (by decide)) (by decide)⟩

end Tupai
