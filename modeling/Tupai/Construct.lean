import Tupai.Pool

namespace Tupai
set_option autoImplicit true

def unusedByte : Byte :=
  (BlockStatus.UNUSED.code <<< 0) ||| (BlockStatus.UNUSED.code <<< 2) |||
    (BlockStatus.UNUSED.code <<< 4) ||| (BlockStatus.UNUSED.code <<< 6)

def clearMap (w map : Nat) : (left i : Nat) → Mem → Mem
  | 0, _, mem => mem
  | left + 1, i, mem => clearMap w map left (i + 1) (mem.store (wrap w (map + i)) unusedByte)

/-- The numbers that are not of type `size_t` are of type `uint64_t`. -/
def poolConstruct (w : Nat) (mem : Mem) (start size blockSize : Nat) : Bool × Pool × Mem :=
  let diff := wrapSub w start (alignCeiling w start 16)
  let start := wrap w (start + diff)
  let size := wrapSub w size diff
  let body := start
  let blockCount := wrap w
    (wrap 64 (4 * wrapSub 64 (wrap 64 (size + start)) body) / wrap 64 (wrap 64 (4 * blockSize) + 1))
  let map := wrap w (body + wrap w (blockSize * blockCount))
  (decide (0 < blockCount), ⟨map, body, blockSize, blockCount⟩, clearMap w map blockCount 0 mem)

/-- Only the region is written, and every block is unused. -/
structure ConstructsInside (w start size blockSize : Nat) : Prop where
  inside : ∀ mem a, a < start ∨ start + size ≤ a →
    (poolConstruct w mem start size blockSize).2.2 a = mem a
  unused : ∀ mem, ∀ i < (poolConstruct w mem start size blockSize).2.1.blockCount,
    poolGet w (poolConstruct w mem start size blockSize).2.1
      (poolConstruct w mem start size blockSize).2.2 i = .UNUSED

/-- How many blocks with a map of two bits each the region has room for, as `uint64_t` computes
it. -/
def blocksFor (w size blockSize : Nat) : Nat :=
  wrap w (wrap 64 (4 * size) / wrap 64 (wrap 64 (4 * blockSize) + 1))

/-- The region has room for a whole map byte for each of the blocks. -/
def MapRoom (w size blockSize : Nat) : Prop :=
  blocksFor w size blockSize = 0 ∨
    wrap w (blockSize * blocksFor w size blockSize) + blocksFor w size blockSize ≤ size

theorem clearMap_of_ne (h : ∀ j, i ≤ j → j < i + left → a ≠ wrap w (map + j)) :
    clearMap w map left i mem a = mem a := by
  induction left generalizing i mem with
  | zero => rfl
  | succ left ih =>
    rw [clearMap, ih fun j hlo hhi => h j (Nat.le_of_succ_le hlo) (by omega)]
    exact Mem.store_other _ _ (h i (Nat.le_refl i) (by omega))

theorem clearMap_cleared (h : mem a = unusedByte) : clearMap w map left i mem a = unusedByte := by
  induction left generalizing i mem with
  | zero => exact h
  | succ left ih =>
    rw [clearMap]
    apply ih
    rw [Mem.store]
    split_ifs
    · rfl
    · exact h

theorem clearMap_of_mem (hlo : i ≤ j) (hhi : j < i + left) :
    clearMap w map left i mem (wrap w (map + j)) = unusedByte := by
  induction left generalizing i mem with
  | zero => omega
  | succ left ih =>
    rw [clearMap]
    rcases Nat.eq_or_lt_of_le hlo with rfl | hlt
    · exact clearMap_cleared (Mem.store_same ..)
    · exact ih hlt (by omega)

theorem getBits_unusedByte (h : slot < 4) : getBits unusedByte slot = .UNUSED := by
  have key : ∀ i : Fin 4, getBits unusedByte i.val = .UNUSED := by decide
  exact key ⟨slot, h⟩

section aligned

variable (h16 : start % 16 = 0) (h0 : 0 < start) (hsize : start + size < 2 ^ w) (hw : w ≤ 64)

include h16 h0 hsize hw

/-- An aligned region is used from its start on. -/
theorem poolConstruct_eq (mem : Mem) (blockSize : Nat) :
    poolConstruct w mem start size blockSize =
      (decide (0 < blocksFor w size blockSize),
        ⟨wrap w (start + wrap w (blockSize * blocksFor w size blockSize)), start, blockSize,
          blocksFor w size blockSize⟩,
        clearMap w (wrap w (start + wrap w (blockSize * blocksFor w size blockSize)))
          (blocksFor w size blockSize) 0 mem) := by
  have h64 : 2 ^ w ≤ 2 ^ 64 := Nat.pow_le_pow_right Nat.two_pos hw
  have halign : alignCeiling w start 16 = start := by
    rw [alignCeiling, if_neg (Nat.ne_of_gt h0), wrap_of_lt (n := 16 * _) (by omega),
      wrap_of_lt (by omega)]
    omega
  have hdiff : wrapSub w start (alignCeiling w start 16) = 0 := by
    rw [halign, wrapSub_of_le (Nat.le_refl _) (by omega), Nat.sub_self]
  have hstart : wrap w (start + 0) = start := wrap_of_lt (by omega)
  have hrest : wrapSub w size 0 = size := wrapSub_of_le (Nat.zero_le _) (by omega)
  have hroom : wrapSub 64 (wrap 64 (size + start)) start = size := by
    rw [wrap_of_lt (by omega), wrapSub_of_le (Nat.le_add_left ..) (by omega),
      Nat.add_sub_cancel_right]
  rw [poolConstruct, hdiff, hstart, hrest, hroom]
  rfl

theorem poolConstruct_unused (mem : Mem) (blockSize i : Nat)
    (hi : i < (poolConstruct w mem start size blockSize).2.1.blockCount) :
    poolGet w (poolConstruct w mem start size blockSize).2.1
      (poolConstruct w mem start size blockSize).2.2 i = .UNUSED := by
  rw [poolConstruct_eq h16 h0 hsize hw] at hi ⊢
  dsimp only at hi ⊢
  rw [poolGet, clearMap_of_mem (Nat.zero_le _) (by omega)]
  exact getBits_unusedByte (Nat.mod_lt i (by decide))

theorem poolConstruct_inside_iff (blockSize : Nat) :
    (∀ mem a, a < start ∨ start + size ≤ a →
      (poolConstruct w mem start size blockSize).2.2 a = mem a) ↔ MapRoom w size blockSize := by
  have hadd (j : Nat) :
      wrap w (wrap w (start + wrap w (blockSize * blocksFor w size blockSize)) + j) =
        wrap w (start + wrap w (blockSize * blocksFor w size blockSize) + j) := Nat.mod_add_mod ..
  have hmap : wrap w (blockSize * blocksFor w size blockSize) < 2 ^ w :=
    Nat.mod_lt _ (Nat.two_pow_pos w)
  simp only [poolConstruct_eq h16 h0 hsize hw, MapRoom]
  generalize wrap w (blockSize * blocksFor w size blockSize) = offset at hadd hmap ⊢
  generalize blocksFor w size blockSize = count
  constructor
  · intro h
    by_contra hover
    -- the first byte of the map that is not in the region
    have hout : ∃ j < count, wrap w (start + offset + j) < start ∨
        start + size ≤ wrap w (start + offset + j) := by
      rcases Nat.lt_or_ge offset size with hlt | hge
      · refine ⟨size - offset, by omega, .inr ?_⟩
        rw [wrap_of_lt (by omega)]
        omega
      · refine ⟨0, by omega, ?_⟩
        rcases Nat.lt_or_ge (start + offset) (2 ^ w) with hlt | hge'
        · right
          rw [Nat.add_zero, wrap_of_lt hlt]
          omega
        · left
          rw [Nat.add_zero, wrap, Nat.mod_eq_sub_mod hge', Nat.mod_eq_of_lt (by omega)]
          omega
    obtain ⟨j, hj, hout⟩ := hout
    have hkept := h (fun _ => 0) _ hout
    rw [← hadd j, clearMap_of_mem (Nat.zero_le j) (by omega)] at hkept
    exact absurd hkept (by decide)
  · intro h mem a hout
    apply clearMap_of_ne
    intro j _ hj he
    rw [hadd, wrap_of_lt (by omega)] at he
    omega

end aligned

/-- `pool_construct` keeps to its region exactly when the region has room for the map bytes. -/
theorem constructsInside_iff (h16 : start % 16 = 0) (h0 : 0 < start) (hsize : start + size < 2 ^ w)
    (hw : w ≤ 64) : ConstructsInside w start size blockSize ↔ MapRoom w size blockSize := by
  rw [← poolConstruct_inside_iff h16 h0 hsize hw]
  exact ⟨fun h => h.inside, fun h => ⟨h, fun mem => poolConstruct_unused h16 h0 hsize hw mem _⟩⟩

theorem constructsInside_page : ConstructsInside 64 0x200000 4096 1024 :=
  (constructsInside_iff (by decide) (by decide) (by decide) (by decide)).2 (.inr (by decide))

/-- The pool of the kernel: 16 MiB in blocks of 64. The map takes up 195779 bytes too many. -/
theorem not_constructsInside : ¬ ConstructsInside 64 0x200000 (4096 * 4096) 64 := by
  intro h
  have hroom := (poolConstruct_inside_iff (by decide) (by decide) (by decide)
    (Nat.le_refl _) 64).1 h.inside
  exact absurd hroom (by unfold MapRoom; decide)

end Tupai
