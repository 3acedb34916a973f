import Mathlib.Algebra.Order.Floor.Div
import Tupai.Pool
import Tupai.Lib.Transition

namespace Tupai
open Lib
set_option autoImplicit true

/-- The blocks of a pool lie in the address space, none of them at `nullptr`. -/
structure Pool.Placed (w : Nat) (pool : Pool) : Prop where
  two_le : 2 ≤ pool.blockSize
  body_pos : 0 < pool.body
  fits : pool.body + pool.blockSize * pool.blockCount ≤ 2 ^ w

def Pool.blocks (pool : Pool) (n : Nat) : Nat := (max n 1 - 1) / pool.blockSize + 1

theorem Pool.max_blocks (pool : Pool) (n : Nat) : max (pool.blocks n) 1 = pool.blocks n :=
  Nat.max_eq_left (Nat.succ_pos _)

theorem Pool.blocks_eq_ceilDiv (pool : Pool) (h : 0 < pool.blockSize) (n : Nat) :
    pool.blocks n = max n 1 ⌈/⌉ pool.blockSize := by
  rw [Nat.ceilDiv_eq_add_pred_div, Pool.blocks, ← Nat.add_div_right _ h]
  congr 1
  omega

/-- One successful request: the returned pointer and the size asked for. -/
structure Alloc where
  ptr : Nat
  n : Nat
deriving DecidableEq

/-- The run of blocks that a live pointer stands for. -/
def Pool.run (pool : Pool) (a : Alloc) : Segment where
  start := (a.ptr - pool.body) / pool.blockSize
  len := pool.blocks a.n
  pos := Nat.succ_pos _

def blockMarking : Marking BlockStatus where
  free := .UNUSED
  head := .HEAD
  tail := .TAIL
  head_ne_free := by decide
  tail_ne_free := by decide
  head_ne_tail := by decide

theorem Pool.Placed.blockCount_le (h : Pool.Placed w pool) : 2 * pool.blockCount ≤ 2 ^ w :=
  calc 2 * pool.blockCount
    _ ≤ pool.blockSize * pool.blockCount := Nat.mul_le_mul_right _ h.two_le
    _ ≤ 2 ^ w := Nat.le_trans (Nat.le_add_left _ _) h.fits

theorem Pool.Placed.block_lt (h : Pool.Placed w pool) (hi : i < pool.blockCount) :
    pool.body + i * pool.blockSize < 2 ^ w := by
  have hm : (i + 1) * pool.blockSize ≤ pool.blockCount * pool.blockSize :=
    Nat.mul_le_mul_right _ hi
  have hf := h.fits
  have h2 := h.two_le
  rw [Nat.mul_comm pool.blockSize] at hf
  rw [Nat.add_mul, Nat.one_mul] at hm
  omega

theorem Pool.Placed.ptr_eq (h : Pool.Placed w pool) (hi : i < pool.blockCount) :
    wrap w (pool.body + wrap w (i * pool.blockSize)) = pool.body + i * pool.blockSize := by
  have hptr := h.block_lt hi
  rw [wrap_of_lt (n := i * _) (by omega), wrap_of_lt hptr]

theorem Pool.needed {pool : Pool} (hpos : 0 < pool.blockSize)
    (hn : n + pool.blockSize ≤ 2 ^ w) :
    alignCeiling w n pool.blockSize / pool.blockSize = pool.blocks n := by
  rw [alignCeiling_exact hpos hn, Nat.mul_div_cancel_left _ hpos, pool.blocks_eq_ceilDiv hpos,
    Nat.ceilDiv_eq_add_pred_div]

theorem Pool.blocks_le {pool : Pool} (h2 : 2 ≤ pool.blockSize)
    (hn : n + pool.blockSize ≤ 2 ^ w) : 2 * pool.blocks n ≤ 2 ^ w := by
  have hd : (max n 1 - 1) / pool.blockSize ≤ (max n 1 - 1) / 2 :=
    Nat.div_le_div_left h2 Nat.two_pos
  have hm : (max n 1 - 1) / 2 * 2 ≤ max n 1 - 1 := Nat.div_mul_le_self _ _
  rw [Pool.blocks]
  omega

/-- The run that a successful allocation marks, and all it changes in the map. -/
structure Allocated (w : Nat) (pool : Pool) (mem mem' : Mem) (n start : Nat) : Prop where
  inside : start + pool.blocks n ≤ pool.blockCount
  unused : ∀ i, start ≤ i → i < start + pool.blocks n → poolGet w pool mem i = .UNUSED
  head : poolGet w pool mem' start = .HEAD
  tail : ∀ i, start < i → i < start + pool.blocks n → poolGet w pool mem' i = .TAIL
  rest : ∀ i < 2 ^ w, i < start ∨ start + pool.blocks n ≤ i →
    poolGet w pool mem' i = poolGet w pool mem i

theorem Marked.allocated (h : Marked w pool mem mem' start (pool.blocks n)) :
    Allocated w pool mem mem' n start :=
  ⟨h.inside, h.unused, h.head, h.tail, h.rest⟩

theorem poolAlloc_spec (hp : Pool.Placed w pool) (hn : n + pool.blockSize ≤ 2 ^ w)
    (h : poolAlloc w pool mem n = some (p, mem')) :
    p = 0 ∧ mem' = mem ∨
      ∃ start, p = pool.body + start * pool.blockSize ∧
        Marked w pool mem mem' start (pool.blocks n) := by
  have hc := hp.blockCount_le
  have hb := Pool.blocks_le hp.two_le hn
  rcases poolAlloc_cases h with hnull | ⟨start, hs, rfl, rfl⟩
  · exact .inl hnull
  · rw [Pool.needed (Nat.lt_of_lt_of_le Nat.two_pos hp.two_le) hn] at hs ⊢
    refine .inr ⟨start, hp.ptr_eq (poolSearch_found hs).1, ?_⟩
    have hmarked := poolSearch_marked (by omega) hs
    rwa [pool.max_blocks n] at hmarked

theorem poolDealloc_spec (hp : Pool.Placed w pool) (hin : start + len ≤ pool.blockCount)
    (hlen : 0 < len) (hhead : poolGet w pool mem start = .HEAD)
    (htail : ∀ i, start < i → i < start + len → poolGet w pool mem i = .TAIL)
    (hstop : start + len < pool.blockCount → poolGet w pool mem (start + len) ≠ .TAIL) :
    ∃ mem', poolDealloc w pool mem (pool.body + start * pool.blockSize) = some mem' ∧
      ∀ i < 2 ^ w, poolGet w pool mem' i =
        if start ≤ i ∧ i < start + len then .UNUSED else poolGet w pool mem i := by
  have hc := hp.blockCount_le
  have hpos : 0 < pool.blockSize := Nat.lt_of_lt_of_le Nat.two_pos hp.two_le
  have hstart : start < 2 ^ w := by omega
  have hptr : pool.body + start * pool.blockSize < 2 ^ w := hp.block_lt (by omega)
  have hoff : wrapSub w (pool.body + start * pool.blockSize) pool.body =
      start * pool.blockSize := by
    rw [wrapSub_of_le (Nat.le_add_right _ _) hptr, Nat.add_sub_cancel_left]
  have hset (j : Nat) (hj : j < 2 ^ w) := poolGet_poolSet pool mem .UNUSED hstart hj
  refine ⟨clearTail w pool (pool.blockCount - (start + 1)) (start + 1)
    (poolSet w pool mem start .UNUSED), ?_, ?_⟩
  · rw [poolDealloc, hoff, if_neg (by rw [Nat.mul_mod_left]; exact fun h => h rfl),
      Nat.mul_div_cancel _ hpos, if_neg (by rw [hhead]; exact fun h => h rfl),
      wrap_of_lt (n := start + 1) (by omega)]
  · intro i hi
    rw [poolGet_clearTail (e := start + len) ?_ (by omega) (by omega) ?_ (by omega) hi, hset i hi]
    · split_ifs <;> first | rfl | omega
    · intro j hlo hhi
      rw [hset j (by omega), if_neg (by omega)]
      exact htail j hlo hhi
    · intro hlt
      rw [hset _ (by omega), if_neg (by omega)]
      exact hstop (by omega)

theorem Marked.records (ha : Marked w pool mem mem' start len) (hlen : 0 < len)
    (hc : pool.blockCount ≤ 2 ^ w)
    (h : Records blockMarking pool.blockCount segs (poolGet w pool mem)) :
    Records blockMarking pool.blockCount (⟨start, len, hlen⟩ :: segs) (poolGet w pool mem') := by
  apply h.insert
  · exact ha.inside
  · exact fun i hi => ha.unused i hi.1 hi.2
  · exact ha.head
  · exact ha.tail
  · intro i hi hout
    have hstop : ¬ (start ≤ i ∧ i < start + len) := hout
    exact ha.rest i (by omega) (by omega)

theorem poolDealloc_records (hp : Pool.Placed w pool) (hs : s ∈ segs)
    (h : Records blockMarking pool.blockCount segs (poolGet w pool mem)) :
    ∃ mem', poolDealloc w pool mem (pool.body + s.start * pool.blockSize) = some mem' ∧
      (∀ i < 2 ^ w, poolGet w pool mem' i =
        if s.start ≤ i ∧ i < s.stop then .UNUSED else poolGet w pool mem i) ∧
      ∀ rest, segs.Perm (s :: rest) →
        Records blockMarking pool.blockCount rest (poolGet w pool mem') := by
  have hc := hp.blockCount_le
  have hin := h.bounded s hs
  obtain ⟨mem', he, hget⟩ := poolDealloc_spec hp hin s.pos (h.head s hs) (h.tail s hs)
    (h.stop_not_tail hs)
  refine ⟨mem', he, hget, fun rest hperm => ?_⟩
  apply (h.perm hperm).erase
  · rintro i ⟨hlo, hhi⟩
    rw [hget i (Nat.lt_of_lt_of_le hhi (by omega)), if_pos ⟨hlo, hhi⟩]
    rfl
  · intro i hi hout
    rw [hget i (by omega)]
    exact if_neg hout

/-- A pool together with the allocations that are live. -/
structure HeapState where
  mem : Mem
  live : List Alloc

/-- Calls that return; a panic has no successor state. -/
inductive HeapStep (w : Nat) (pool : Pool) : HeapState → HeapState → Prop where
  | alloc (s : HeapState) (n : Nat) : n + pool.blockSize ≤ 2 ^ w →
      poolAlloc w pool s.mem n = some (p, mem') → p ≠ 0 →
      HeapStep w pool s ⟨mem', ⟨p, n⟩ :: s.live⟩
  | null (s : HeapState) (n : Nat) : n + pool.blockSize ≤ 2 ^ w →
      poolAlloc w pool s.mem n = some (0, mem') → HeapStep w pool s ⟨mem', s.live⟩
  | dealloc (s : HeapState) (a : Alloc) : a ∈ s.live →
      poolDealloc w pool s.mem a.ptr = some mem' →
      HeapStep w pool s ⟨mem', s.live.erase a⟩

def FreshHeap (w : Nat) (pool : Pool) (s : HeapState) : Prop :=
  s.live = [] ∧ ∀ i < pool.blockCount, poolGet w pool s.mem i = .UNUSED

/-- The map entries describe exactly the live allocations. -/
structure HeapSound (w : Nat) (pool : Pool) (s : HeapState) : Prop where
  records : Records blockMarking pool.blockCount (s.live.map pool.run) (poolGet w pool s.mem)
  aligned : ∀ a ∈ s.live, a.ptr = pool.body + (pool.run a).start * pool.blockSize

theorem Pool.run_eq (pool : Pool) (h : 0 < pool.blockSize) (start n : Nat) :
    pool.run ⟨pool.body + start * pool.blockSize, n⟩ =
      ⟨start, pool.blocks n, Nat.succ_pos _⟩ := by
  have hstart : (pool.body + start * pool.blockSize - pool.body) / pool.blockSize = start := by
    rw [Nat.add_sub_cancel_left, Nat.mul_div_cancel _ h]
  simp only [Pool.run, hstart]

theorem HeapSound.alloc (hs : HeapSound w pool s) (hp : Pool.Placed w pool)
    (ha : Marked w pool s.mem mem' start (pool.blocks n)) :
    HeapSound w pool ⟨mem', ⟨pool.body + start * pool.blockSize, n⟩ :: s.live⟩ := by
  have hc := hp.blockCount_le
  have hrun := pool.run_eq (Nat.lt_of_lt_of_le Nat.two_pos hp.two_le) start n
  refine ⟨?_, List.forall_mem_cons.2 ⟨?_, hs.aligned⟩⟩
  · rw [List.map_cons, hrun]
    exact ha.records (Nat.succ_pos _) (by omega) hs.records
  · rw [hrun]

theorem HeapSound.dealloc (hs : HeapSound w pool s) (hp : Pool.Placed w pool) (ha : a ∈ s.live)
    (h : poolDealloc w pool s.mem a.ptr = some mem') :
    HeapSound w pool ⟨mem', s.live.erase a⟩ := by
  obtain ⟨mem₁, he, _, hrest⟩ := poolDealloc_records hp (List.mem_map_of_mem ha) hs.records
  rw [← hs.aligned a ha, h, Option.some.injEq] at he
  subst he
  refine ⟨?_, fun b hb => hs.aligned b (List.mem_of_mem_erase hb)⟩
  exact hrest _ ((List.perm_cons_erase ha).map pool.run)

/-- In every run of allocations and frees the map describes exactly the live pointers. -/
theorem heap_sound (hp : Pool.Placed w pool)
    (hr : Reachable (FreshHeap w pool) (HeapStep w pool) s) : HeapSound w pool s := by
  apply hr.invariant
  · rintro s ⟨hlive, hunused⟩
    refine ⟨?_, ?_⟩
    · rw [hlive]
      exact .nil hunused
    · rw [hlive]
      exact List.forall_mem_nil _
  · intro s t hs ht
    cases ht with
    | alloc _ n hn ha hne =>
      rcases poolAlloc_spec hp hn ha with ⟨he, _⟩ | ⟨start, rfl, hal⟩
      · exact absurd he hne
      · exact hs.alloc hp hal
    | null _ n hn ha =>
      have hb := hp.body_pos
      rcases poolAlloc_spec hp hn ha with ⟨_, rfl⟩ | ⟨start, he, _⟩
      · exact hs
      · omega
    | dealloc _ a ha hd => exact hs.dealloc hp ha hd

def smallPool : Pool := ⟨24, 16, 2, 4⟩

theorem smallPool_placed : Pool.Placed 8 smallPool := ⟨by decide, by decide, by decide⟩

/-- Two blocks are allocated and then a third one, and the first two are freed. -/
theorem heap_sound_smallPool : ∃ mem₁ mem₂ mem₃,
    poolAlloc 8 smallPool (fun _ => 0x55) 3 = some (16, mem₁) ∧
    poolAlloc 8 smallPool mem₁ 2 = some (20, mem₂) ∧
    poolDealloc 8 smallPool mem₂ 16 = some mem₃ ∧ HeapSound 8 smallPool ⟨mem₃, [⟨20, 2⟩]⟩ := by
  have hfresh : FreshHeap 8 smallPool ⟨fun _ => 0x55, []⟩ := ⟨rfl, by decide⟩
  have htwo : 3 + smallPool.blockSize ≤ 2 ^ 8 := by decide
  have hone : 2 + smallPool.blockSize ≤ 2 ^ 8 := by decide
  exact ⟨_, _, _, rfl, rfl, rfl, heap_sound smallPool_placed (.step (.step (.step (.init hfresh)
    (.alloc _ 3 htwo rfl (by decide))) (.alloc _ 2 hone rfl (by decide)))
      (.dealloc _ ⟨16, 3⟩ (by decide) rfl))⟩

end Tupai
