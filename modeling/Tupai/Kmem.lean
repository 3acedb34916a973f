import Tupai.Accesses
import Tupai.Lib.Blocks
import Tupai.Multiboot

namespace Tupai
open Lib
set_option autoImplicit true

/-- `operator new`, too. -/
def kmemAlloc (w : Nat) (pool : Pool) (mem : Mem) (n : Nat) : Option (Nat × Mem) :=
  match poolAlloc w pool mem n with
  | none => none
  | some (ptr, mem) => if ptr = 0 then none else some (ptr, mem)

/-- `operator delete`, too. -/
def kmemDealloc (w : Nat) (pool : Pool) (mem : Mem) (ptr : Nat) : Option Mem :=
  poolDealloc w pool mem ptr

/-- What the kernel does with its heap: it asks for blocks, gives back those that it has, and writes
to bytes of them. -/
inductive KmemStep (w : Nat) (pool : Pool) : HeapState → HeapState → Prop where
  | alloc (s : HeapState) (n : Nat) : n + pool.blockSize ≤ 2 ^ w →
      kmemAlloc w pool s.mem n = some (p, mem') → KmemStep w pool s ⟨mem', ⟨p, n⟩ :: s.live⟩
  | dealloc (s : HeapState) (a : Alloc) : a ∈ s.live →
      kmemDealloc w pool s.mem a.ptr = some mem' → KmemStep w pool s ⟨mem', s.live.erase a⟩
  | store (s : HeapState) (a : Alloc) (i : Nat) (b : Byte) : a ∈ s.live → i < a.n →
      KmemStep w pool s ⟨s.mem.store (wrap w (a.ptr + i)) b, s.live⟩

def Alloc.extent (a : Alloc) : Nat × Nat := (a.ptr, a.n)

/-- These are the blocks of the live pointers, and memory has their contents. -/
structure HeapState.Shows (s : HeapState) (bs : List (Block Byte)) : Prop where
  live : (s.live.map Alloc.extent).Perm (bs.map Block.extent)
  holds : ∀ b ∈ bs, b.Holds s.mem

/-- A run is one of a heap of blocks between the start of the pool and its map. What is live can
be freed, and a request is refused only where there are not enough unused blocks in a row. -/
structure HeapState.Serves (w : Nat) (pool : Pool) (s : HeapState) : Prop where
  refines : ∃ bs, Reachable (· = []) (BlockStep pool.body pool.map) bs ∧ s.Shows bs
  frees : ∀ a ∈ s.live, kmemDealloc w pool s.mem a.ptr ≠ none
  refuses : ∀ n, n + pool.blockSize ≤ 2 ^ w →
    (kmemAlloc w pool s.mem n = none ↔ ∀ i, ¬ FreeRun w pool s.mem (pool.blocks n) i)

/-- The map is right behind the blocks, and both are in the address space. -/
structure Pool.Packed (w : Nat) (pool : Pool) : Prop extends Pool.Placed w pool where
  map : pool.map = pool.body + pool.blockSize * pool.blockCount
  mapFits : pool.map + mapBytes pool.blockCount ≤ 2 ^ w

variable {w : Nat} {pool : Pool} {mem mem' : Mem} {s : HeapState}

section frame

variable (hp : Pool.Packed w pool)

include hp

theorem Pool.Packed.entry (hi : i < pool.blockCount) :
    wrap w (pool.map + i / 4) = pool.map + i / 4 := by
  have hfits := hp.mapFits
  rw [mapBytes] at hfits
  exact wrap_of_lt (by omega)

theorem poolSet_below (hi : i < pool.blockCount) (ha : a < pool.map) (status : BlockStatus) :
    poolSet w pool mem i status a = mem a := by
  rw [poolSet, hp.entry hi]
  exact Mem.store_other _ _ (by omega)

theorem markTail_below (hend : start + i + left ≤ pool.blockCount) (ha : a < pool.map) :
    markTail w pool start left i mem a = mem a := by
  have hc := hp.blockCount_le
  induction left generalizing i mem with
  | zero => rfl
  | succ left ih =>
    rw [markTail, ih (by omega), wrap_of_lt (by omega), poolSet_below hp (by omega) ha]

theorem clearTail_below (hend : i + left ≤ pool.blockCount) (ha : a < pool.map) :
    clearTail w pool left i mem a = mem a := by
  induction left generalizing i mem with
  | zero => rfl
  | succ left ih =>
    rw [clearTail]
    split_ifs
    · rw [ih (by omega), poolSet_below hp (by omega) ha]
    · rfl

/-- Allocation and free write to the map only. -/
theorem poolAlloc_below (halloc : poolAlloc w pool mem n = some (p, mem')) (ha : a < pool.map) :
    mem' a = mem a := by
  have hc := hp.blockCount_le
  rcases poolAlloc_cases halloc with ⟨_, rfl⟩ | ⟨start, hs, _, rfl⟩
  · rfl
  · have hlt := (poolSearch_found hs).1
    have hneeded := two_mul_blocksNeeded_le hp.two_le (w := w) (by omega) n
    have hin := (poolSearch_marked (by omega) hs).inside
    rw [markTail_below hp (by omega) ha, poolSet_below hp (by omega) ha]

theorem poolDealloc_below (hi : i < pool.blockCount)
    (hfree : poolDealloc w pool mem (pool.body + i * pool.blockSize) = some mem')
    (ha : a < pool.map) : mem' a = mem a := by
  have hc := hp.blockCount_le
  have hpos : 0 < pool.blockSize := Nat.lt_of_lt_of_le Nat.two_pos hp.two_le
  have hoff : wrapSub w (pool.body + i * pool.blockSize) pool.body = i * pool.blockSize := by
    rw [wrapSub_of_le (Nat.le_add_right ..) (hp.block_lt hi), Nat.add_sub_cancel_left]
  rw [poolDealloc, hoff, if_neg (not_not.2 (Nat.mul_mod_left ..)),
    Nat.mul_div_cancel _ hpos] at hfree
  dsimp only at hfree
  split_ifs at hfree with hhead
  cases hfree
  rw [wrap_of_lt (by omega), clearTail_below hp (by omega) ha, poolSet_below hp hi ha]

theorem poolGet_store_below (hi : i < pool.blockCount) (ha : a < pool.map) (b : Byte) :
    poolGet w pool (mem.store a b) i = poolGet w pool mem i := by
  rw [poolGet, poolGet, hp.entry hi, Mem.store_other _ _ (by omega)]

end frame

theorem le_blocks (hpos : 0 < pool.blockSize) (n : Nat) :
    n ≤ pool.blocks n * pool.blockSize := by
  have hlt := Nat.lt_mul_div_succ (max n 1 - 1) hpos
  rw [Pool.blocks, Nat.mul_comm]
  omega

/-- Where a live pointer points to, and how far its blocks reach. -/
theorem HeapSound.inside (h : HeapSound w pool s) (hp : Pool.Packed w pool) (ha : a ∈ s.live) :
    (pool.run a).start < pool.blockCount ∧ pool.body ≤ a.ptr ∧
      a.ptr + a.n ≤ pool.body + (pool.run a).stop * pool.blockSize ∧ a.ptr + a.n ≤ pool.map := by
  have hstop := h.records.bounded _ (List.mem_map_of_mem ha)
  have hstart := (pool.run a).covers_start.2
  have hptr := h.aligned a ha
  have hle := le_blocks (Nat.lt_of_lt_of_le Nat.two_pos hp.two_le) a.n
  have hsum : (pool.run a).stop * pool.blockSize =
      (pool.run a).start * pool.blockSize + pool.blocks a.n * pool.blockSize := Nat.add_mul ..
  have hmul := Nat.mul_le_mul_right pool.blockSize hstop
  rw [Nat.mul_comm pool.blockCount] at hmul
  have hmap := hp.map
  exact ⟨by omega, by omega, by omega, by omega⟩

theorem HeapSound.apart (h : HeapSound w pool s) (hp : Pool.Packed w pool) (ha : a ∈ s.live)
    (hb : b ∈ s.live) (hruns : (pool.run a).Apart (pool.run b)) :
    a.ptr ≠ b.ptr ∧ (a.ptr + a.n ≤ b.ptr ∨ b.ptr + b.n ≤ a.ptr) := by
  have hpos : 0 < pool.blockSize := Nat.lt_of_lt_of_le Nat.two_pos hp.two_le
  have hbefore : ∀ x ∈ s.live, ∀ y ∈ s.live, (pool.run x).stop ≤ (pool.run y).start →
      x.ptr < y.ptr ∧ x.ptr + x.n ≤ y.ptr := by
    intro x hx y hy hle
    have hend := (h.inside hp hx).2.2.1
    have hx' := h.aligned x hx
    have hy' := h.aligned y hy
    have hmul := Nat.mul_le_mul_right pool.blockSize hle
    have hlt := Nat.mul_lt_mul_of_pos_right (pool.run x).covers_start.2 hpos
    exact ⟨by omega, by omega⟩
  rcases hruns with hle | hle
  · have hxy := hbefore a ha b hb hle
    exact ⟨Nat.ne_of_lt hxy.1, .inl hxy.2⟩
  · have hxy := hbefore b hb a ha hle
    exact ⟨Nat.ne_of_gt hxy.1, .inr hxy.2⟩

theorem kmemAlloc_some (h : kmemAlloc w pool mem n = some (p, mem')) :
    poolAlloc w pool mem n = some (p, mem') ∧ p ≠ 0 := by
  rw [kmemAlloc] at h
  split at h
  · cases h
  · next halloc =>
    split_ifs at h with hne
    cases h
    exact ⟨halloc, hne⟩

/-- What a run of the kernel and one of the heap of blocks have in common. -/
structure Simulates (w : Nat) (pool : Pool) (s : HeapState) (bs : List (Block Byte)) : Prop where
  sound : HeapSound w pool s
  shows : s.Shows bs

namespace Simulates

variable {bs : List (Block Byte)} (h : Simulates w pool s bs) (hp : Pool.Packed w pool)
  (hbs : Reachable (· = []) (BlockStep pool.body pool.map) bs)

include h hp hbs

theorem alloc (hn : n + pool.blockSize ≤ 2 ^ w)
    (ha : kmemAlloc w pool s.mem n = some (p, mem')) :
    ∃ bs', BlockStep pool.body pool.map bs bs' ∧ Simulates w pool ⟨mem', ⟨p, n⟩ :: s.live⟩ bs' := by
  obtain ⟨halloc, hne⟩ := kmemAlloc_some ha
  obtain ⟨hnull, _⟩ | ⟨start, rfl, hmarked⟩ := poolAlloc_spec hp.toPlaced hn halloc
  · exact absurd hnull hne
  · have hsound := h.sound.alloc hp.toPlaced hmarked
    have hin := hsound.inside hp List.mem_cons_self
    have hrecords := hsound.records.apart
    rw [List.map_cons, List.pairwise_cons] at hrecords
    refine ⟨⟨pool.body + start * pool.blockSize, n,
      fun i => mem' (pool.body + start * pool.blockSize + i)⟩ :: bs, ?_, hsound, ?_, ?_⟩
    · refine .take _ hin.2.1 hin.2.2.2 fun c hc => ?_
      obtain ⟨a, halive, he⟩ := List.mem_map.1 (h.shows.live.mem_iff.2 (List.mem_map_of_mem hc))
      obtain ⟨hptr, hlen⟩ := Prod.mk.inj he
      have hapart := hsound.apart hp List.mem_cons_self (List.mem_cons_of_mem _ halive)
        (hrecords.1 _ (List.mem_map_of_mem halive))
      rw [hptr, hlen] at hapart
      exact hapart
    · exact h.shows.live.cons _
    · refine List.forall_mem_cons.2 ⟨fun i _ => rfl, fun c hc => (h.shows.holds c hc).congr ?_⟩
      intro a _ hhi
      exact poolAlloc_below hp halloc (Nat.lt_of_lt_of_le hhi (blocks_inside hbs c hc).2)

theorem dealloc (ha : a ∈ s.live) (hfree : kmemDealloc w pool s.mem a.ptr = some mem') :
    ∃ bs', BlockStep pool.body pool.map bs bs' ∧ Simulates w pool ⟨mem', s.live.erase a⟩ bs' := by
  obtain ⟨b, rest, he, hperm⟩ := exists_block h.shows.live (List.mem_map_of_mem ha)
  refine ⟨rest, .give b hperm, h.sound.dealloc hp.toPlaced ha hfree, ?_, fun c hc => ?_⟩
  · have hlive := ((List.perm_cons_erase ha).map Alloc.extent).symm.trans
      (h.shows.live.trans (hperm.map Block.extent))
    rw [List.map_cons, List.map_cons, he] at hlive
    exact hlive.cons_inv
  · have hmem : c ∈ bs := hperm.mem_iff.2 (List.mem_cons_of_mem b hc)
    refine (h.shows.holds c hmem).congr fun x _ hhi => ?_
    rw [kmemDealloc, h.sound.aligned a ha] at hfree
    exact poolDealloc_below hp (h.sound.inside hp ha).1 hfree
      (Nat.lt_of_lt_of_le hhi (blocks_inside hbs c hmem).2)

theorem store (ha : a ∈ s.live) (hi : i < a.n) (x : Byte) :
    ∃ bs', BlockStep pool.body pool.map bs bs' ∧
      Simulates w pool ⟨s.mem.store (wrap w (a.ptr + i)) x, s.live⟩ bs' := by
  obtain ⟨b, rest, he, hperm⟩ := exists_block h.shows.live (List.mem_map_of_mem ha)
  obtain ⟨hptr, hlen⟩ := Prod.mk.inj he
  have hend := (h.sound.inside hp ha).2.2.2
  have hfits := hp.mapFits
  have hapart := (List.pairwise_cons.1
    ((hperm.pairwise_iff Block.Apart.symm).1 (blocks_apart hbs))).1
  rw [wrap_of_lt (by omega), Mem.store_eq_update]
  refine ⟨b.put i x :: rest, .put b i x hperm (hlen ▸ hi), ⟨?_, h.sound.aligned⟩, ?_, ?_⟩
  · refine h.sound.records.congr fun j hj => ?_
    rw [← Mem.store_eq_update]
    exact poolGet_store_below hp hj (by omega) x
  · exact h.shows.live.trans (hperm.map Block.extent)
  · rw [← hptr]
    refine List.forall_mem_cons.2 ⟨?_, fun c hc => ?_⟩
    · exact (h.shows.holds b (hperm.mem_iff.2 List.mem_cons_self)).put i x
    · exact (h.shows.holds c (hperm.mem_iff.2 (List.mem_cons_of_mem b hc))).put_other
        (hapart c hc) (hlen ▸ hi) x

theorem step (hs : KmemStep w pool s s') :
    ∃ bs', BlockStep pool.body pool.map bs bs' ∧ Simulates w pool s' bs' := by
  cases hs with
  | alloc _ n hn ha => exact h.alloc hp hbs hn ha
  | dealloc _ a ha hfree => exact h.dealloc hp hbs ha hfree
  | store _ a i b ha hi => exact h.store hp hbs ha hi b

end Simulates

section boot

variable {a : Arch}

end boot

end Tupai
