import Tupai.FirstFit

namespace Tupai
open Lib
set_option autoImplicit true

def Pool.ptr (pool : Pool) (s : Segment) : Nat := pool.body + s.start * pool.blockSize

/-- A pool with the runs of blocks of the live allocations. -/
structure PoolRun where
  mem : Mem
  live : List Segment

/-- Requests of any size that return, frees of live pointers, and whatever else is written outside
of the map. -/
inductive PoolStep (w : Nat) (pool : Pool) : PoolRun → PoolRun → Prop
  | alloc (r : PoolRun) (n : Nat) (s : Segment) : n < 2 ^ w →
      poolAlloc w pool r.mem n = some (pool.ptr s, mem') → pool.ptr s ≠ 0 →
      s.len = (poolMarks w pool r.mem n).length → PoolStep w pool r ⟨mem', s :: r.live⟩
  | null (r : PoolRun) (n : Nat) : n < 2 ^ w → poolAlloc w pool r.mem n = some (0, mem') →
      PoolStep w pool r ⟨mem', r.live⟩
  | dealloc (r : PoolRun) (s : Segment) : r.live.Perm (s :: rest) →
      poolDealloc w pool r.mem (pool.ptr s) = some mem' → PoolStep w pool r ⟨mem', rest⟩
  | other (r : PoolRun) : (∀ i < pool.blockCount, poolGet w pool mem' i = poolGet w pool r.mem i) →
      PoolStep w pool r ⟨mem', r.live⟩

def FreshPool (w : Nat) (pool : Pool) (r : PoolRun) : Prop :=
  r.live = [] ∧ ∀ i < pool.blockCount, poolGet w pool r.mem i = .UNUSED

namespace PoolRun

/-- A free panics, or is one of a live allocation and clears its map entries and no others. -/
def Refuses (w : Nat) (pool : Pool) (r : PoolRun) (p : Nat) : Prop :=
  poolDealloc w pool r.mem p = none ∨ ∃ s ∈ r.live, p = pool.ptr s ∧
    ∃ mem', poolDealloc w pool r.mem p = some mem' ∧ ∀ i < 2 ^ w, poolGet w pool mem' i =
      if s.start ≤ i ∧ i < s.stop then .UNUSED else poolGet w pool r.mem i

/-- The pointer is one past the blocks for which the bits behind the map read as a head. -/
def Astray (w : Nat) (pool : Pool) (r : PoolRun) (p : Nat) : Prop :=
  wrapSub w p pool.body % pool.blockSize = 0 ∧
    pool.blockCount ≤ wrapSub w p pool.body / pool.blockSize ∧
    poolGet w pool r.mem (wrapSub w p pool.body / pool.blockSize) = .HEAD

def Sound (w : Nat) (pool : Pool) (r : PoolRun) : Prop :=
  Records blockMarking pool.blockCount r.live (poolGet w pool r.mem)

end PoolRun

variable {w : Nat} {pool : Pool} {r : PoolRun}

theorem two_mul_blocksNeeded_le (h2 : 2 ≤ pool.blockSize) (hw : 2 ≤ 2 ^ w) (n : Nat) :
    2 * (alignCeiling w n pool.blockSize / pool.blockSize) ≤ 2 ^ w := by
  by_cases h0 : n = 0
  · rw [alignCeiling, if_pos h0, Nat.div_self (by omega)]
    exact hw
  · rw [alignCeiling, if_neg h0]
    have hlt : wrap w (pool.blockSize + wrap w (pool.blockSize * ((n - 1) / pool.blockSize))) <
        2 ^ w := Nat.mod_lt _ (Nat.two_pow_pos w)
    calc 2 * (wrap w _ / pool.blockSize)
      _ ≤ pool.blockSize * (wrap w _ / pool.blockSize) := Nat.mul_le_mul_right _ h2
      _ ≤ wrap w _ := Nat.mul_div_le _ _
      _ ≤ 2 ^ w := Nat.le_of_lt hlt

theorem poolAlloc_segment (hp : Pool.Placed w pool) (ha : poolAlloc w pool mem n = some (p, mem'))
    (hne : p ≠ 0) : ∃ s : Segment, p = pool.ptr s ∧ s.len = (poolMarks w pool mem n).length ∧
      Marked w pool mem mem' s.start s.len := by
  have hc := hp.blockCount_le
  rcases poolAlloc_cases ha with ⟨hnull, _⟩ | ⟨start, hs, rfl, rfl⟩
  · exact absurd hnull hne
  · have hlt := (poolSearch_found hs).1
    have hneeded := two_mul_blocksNeeded_le hp.two_le (w := w) (by omega) n
    have hmarked := poolSearch_marked (by omega) hs
    have hlen := length_poolMarks hs
    refine ⟨⟨start, (poolMarks w pool mem n).length, by omega⟩, ?_, rfl, ?_⟩
    · exact hp.ptr_eq hlt
    · rw [← hlen] at hmarked
      exact hmarked

theorem Pool.ptr_inj (hp : Pool.Placed w pool) {s t : Segment} (h : pool.ptr s = pool.ptr t) :
    s.start = t.start :=
  Nat.eq_of_mul_eq_mul_right (Nat.lt_of_lt_of_le Nat.two_pos hp.two_le) (Nat.add_left_cancel h)

theorem PoolRun.Sound.alloc (h : r.Sound w pool) (hp : Pool.Placed w pool)
    (ha : poolAlloc w pool r.mem n = some (pool.ptr s, mem')) (hne : pool.ptr s ≠ 0)
    (hlen : s.len = (poolMarks w pool r.mem n).length) :
    PoolRun.Sound w pool ⟨mem', s :: r.live⟩ := by
  have hc := hp.blockCount_le
  obtain ⟨s', hptr, hlen', hmarked⟩ := poolAlloc_segment hp ha hne
  rw [← Pool.ptr_inj hp hptr, hlen', ← hlen] at hmarked
  exact hmarked.records s.pos (by omega) h

theorem PoolRun.Sound.step (h : r.Sound w pool) (hp : Pool.Placed w pool)
    (ht : PoolStep w pool r r') : r'.Sound w pool := by
  cases ht with
  | alloc _ n s hn ha hne hlen => exact h.alloc hp ha hne hlen
  | null _ n hn ha =>
    have hb := hp.body_pos
    rcases poolAlloc_cases ha with ⟨_, rfl⟩ | ⟨start, hs, hptr, _⟩
    · exact h
    · rw [hp.ptr_eq (poolSearch_found hs).1] at hptr
      omega
  | dealloc _ s hperm hd =>
    obtain ⟨mem₁, he, _, hrest⟩ :=
      poolDealloc_records hp (hperm.mem_iff.2 List.mem_cons_self) h
    cases he.symm.trans hd
    exact hrest _ hperm
  | other _ hsame => exact Records.congr h hsame

theorem poolRun_sound (hp : Pool.Placed w pool)
    (hr : Reachable (FreshPool w pool) (PoolStep w pool) r) : r.Sound w pool := by
  apply hr.invariant
  · rintro s ⟨hlive, hunused⟩
    rw [PoolRun.Sound, hlive]
    exact .nil hunused
  · exact fun _ _ h ht => h.step hp ht

/-- In range the map tells live pointers from others. -/
theorem PoolRun.Sound.live_of_head (h : r.Sound w pool) (hp : Pool.Placed w pool) (hw : p < 2 ^ w)
    (hmod : wrapSub w p pool.body % pool.blockSize = 0)
    (hlt : wrapSub w p pool.body / pool.blockSize < pool.blockCount)
    (hhead : poolGet w pool r.mem (wrapSub w p pool.body / pool.blockSize) = .HEAD) :
    ∃ s ∈ r.live, p = pool.ptr s := by
  obtain ⟨s, hs, hstart⟩ := Records.of_head h hlt hhead
  refine ⟨s, hs, ?_⟩
  have hfits := hp.block_lt hlt
  have hoff := Nat.div_mul_cancel (Nat.dvd_of_mod_eq_zero hmod)
  rw [Pool.ptr, hstart, hoff]
  rw [hoff] at hfits
  by_cases hle : pool.body ≤ p
  · rw [wrapSub_of_le hle hw]
    omega
  · rw [wrapSub, wrap_of_lt (by omega)] at hfits
    omega

theorem wrapSub_ptr (hp : Pool.Placed w pool) {s : Segment} (hs : s.start < pool.blockCount) :
    wrapSub w (pool.ptr s) pool.body = s.start * pool.blockSize := by
  rw [Pool.ptr, wrapSub_of_le (Nat.le_add_right ..) (hp.block_lt hs), Nat.add_sub_cancel_left]

/-- An invalid free is refused exactly as long as no bits behind the map read as a head. -/
theorem poolDealloc_refuses_iff (hp : Pool.Placed w pool)
    (hr : Reachable (FreshPool w pool) (PoolStep w pool) r) (hw : p < 2 ^ w) :
    r.Refuses w pool p ↔ ¬ r.Astray w pool p := by
  have hpos : 0 < pool.blockSize := Nat.lt_of_lt_of_le Nat.two_pos hp.two_le
  have h := poolRun_sound hp hr
  constructor
  · rintro hrefuse ⟨hmod, hle, hhead⟩
    rcases hrefuse with hnone | ⟨s, hs, rfl, _⟩
    · rw [poolDealloc, if_neg (not_not.2 hmod), if_neg (not_not.2 hhead)] at hnone
      cases hnone
    · have hlt := Nat.lt_of_lt_of_le s.covers_start.2 (Records.bounded h s hs)
      rw [wrapSub_ptr hp hlt, Nat.mul_div_cancel _ hpos] at hle
      omega
  · intro hcaught
    by_cases hmod : wrapSub w p pool.body % pool.blockSize = 0
    · by_cases hhead : poolGet w pool r.mem (wrapSub w p pool.body / pool.blockSize) = .HEAD
      · have hlt : wrapSub w p pool.body / pool.blockSize < pool.blockCount := by
          by_contra hle
          exact hcaught ⟨hmod, Nat.le_of_not_lt hle, hhead⟩
        obtain ⟨s, hs, rfl⟩ := h.live_of_head hp hw hmod hlt hhead
        obtain ⟨mem', hd, hget, _⟩ := poolDealloc_records hp hs h
        exact .inr ⟨s, hs, rfl, mem', hd, hget⟩
      · refine .inl ?_
        rw [poolDealloc, if_neg (not_not.2 hmod), if_pos hhead]
    · refine .inl ?_
      rw [poolDealloc, if_pos hmod]

def oneLive : PoolRun := ⟨poolSet 8 smallPool (fun _ => 0x55) 0 .HEAD, [⟨0, 1, Nat.one_pos⟩]⟩

theorem oneLive_reachable : Reachable (FreshPool 8 smallPool) (PoolStep 8 smallPool) oneLive := by
  have hfresh : FreshPool 8 smallPool ⟨fun _ => 0x55, []⟩ := ⟨rfl, by decide⟩
  exact .step (.init hfresh) (.alloc _ 1 ⟨0, 1, Nat.one_pos⟩ (by decide) rfl (by decide) rfl)

theorem poolDealloc_refuses_oneLive : oneLive.Refuses 8 smallPool 18 :=
  (poolDealloc_refuses_iff smallPool_placed oneLive_reachable (by decide)).2 (by
    rintro ⟨_, hle, _⟩
    exact absurd hle (by decide))

/-- Behind the byte of the map there is one with all bits set. -/
def headsBehind : PoolRun := ⟨fun a => if a = 0x100101 then 0xFF else 0x55, []⟩

/-- Nothing is live, but the free of a pointer behind the blocks clears bits behind the map. -/
theorem poolDealloc_not_refused :
    Reachable (FreshPool 64 emptyPool) (PoolStep 64 emptyPool) headsBehind ∧
      (∃ mem, poolDealloc 64 emptyPool headsBehind.mem 0x100100 = some mem ∧
        mem 0x100101 = 0xFD) ∧ ¬ headsBehind.Refuses 64 emptyPool 0x100100 := by
  refine ⟨.init ⟨rfl, by decide⟩, ⟨_, rfl, rfl⟩, ?_⟩
  rintro (hnone | ⟨s, hs, _⟩)
  · cases hnone
  · cases hs

end Tupai
