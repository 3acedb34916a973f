import Mathlib.Algebra.Ring.Int.Defs
import Mathlib.Algebra.Ring.Nat
import Mathlib.Tactic.Common

namespace Tupai
set_option autoImplicit true

abbrev Byte := BitVec 8

/-- Flat memory, indexed by `size_t` addresses. -/
abbrev Mem := Nat → Byte

/-- Reduction of an exact result to a `size_t` of width `w`. -/
def wrap (w n : Nat) : Nat := n % 2 ^ w

theorem wrap_of_lt (h : n < 2 ^ w) : wrap w n = n := Nat.mod_eq_of_lt h

def wrapSub (w a b : Nat) : Nat := wrap w (a + (2 ^ w - b))

theorem wrapSub_of_le (hab : b ≤ a) (ha : a < 2 ^ w) : wrapSub w a b = a - b := by
  have he : a + (2 ^ w - b) = (a - b) + 2 ^ w := by omega
  rw [wrapSub, wrap, he, Nat.add_mod_right]
  exact Nat.mod_eq_of_lt (by omega)

def intMax : Nat := 2 ^ 31 - 1

/-- `n - 1` as a `size_t`. -/
def sizePred (w n : Nat) : Nat := if n = 0 then 2 ^ w - 1 else n - 1

/-- The conversion of a signed integer to a `size_t` of width `w`. -/
def toSize (w : Nat) (x : Int) : Nat := (x % 2 ^ w).toNat

theorem toSize_of_nonneg (h0 : 0 ≤ x) (h : x < 2 ^ w) : (toSize w x : Int) = x := by
  rw [toSize, Int.emod_eq_of_lt h0 h, Int.toNat_of_nonneg h0]

theorem toSize_lt (w : Nat) (x : Int) : toSize w x < 2 ^ w := by
  have hpos : (0 : Int) < 2 ^ w := by exact_mod_cast Nat.two_pow_pos w
  have hlt := Int.emod_lt_of_pos x hpos
  rw [toSize, Int.toNat_lt (Int.emod_nonneg x (Int.ne_of_gt hpos))]
  exact_mod_cast hlt

theorem toSize_of_lt {n : Nat} (h : n < 2 ^ w) : toSize w (n : Int) = n := by
  rw [toSize, Int.emod_eq_of_lt (by omega) (by exact_mod_cast h), Int.toNat_natCast]

theorem setWidth_mask (x : BitVec 16) : (x &&& 0xFF#16).setWidth 8 = x.setWidth 8 := by
  rw [BitVec.setWidth_and]
  exact BitVec.and_allOnes

theorem append_setWidth (x : BitVec 16) : (x >>> 8).setWidth 8 ++ x.setWidth 8 = x := by
  ext i hi
  rw [BitVec.getElem_append]
  split
  · exact BitVec.getElem_setWidth ..
  · next h =>
    rw [BitVec.getElem_setWidth, BitVec.getLsbD_ushiftRight,
      Nat.add_sub_of_le (Nat.le_of_not_lt h), BitVec.getLsbD_eq_getElem hi]

def Mem.store (mem : Mem) (addr : Nat) (b : Byte) : Mem :=
  fun a => if a = addr then b else mem a

@[simp] theorem Mem.store_same (mem : Mem) (addr : Nat) (b : Byte) :
    mem.store addr b addr = b := if_pos rfl

theorem Mem.store_other (mem : Mem) (b : Byte) (h : a ≠ addr) :
    mem.store addr b a = mem a := if_neg h

def alignCeiling (w n align : Nat) : Nat :=
  if n = 0 then align else wrap w (align + wrap w (align * ((n - 1) / align)))

/-- Rounding up never reaches the end of the address space when one alignment unit is left. -/
theorem alignCeiling_exact (ha : 0 < align) (hn : n + align ≤ 2 ^ w) :
    alignCeiling w n align = align * ((max n 1 + align - 1) / align) := by
  have hm : align * ((n - 1) / align) ≤ n - 1 := Nat.mul_div_le _ _
  by_cases h0 : n = 0
  · subst n
    have he : (max 0 1 + align - 1) / align = 1 := by
      rw [Nat.zero_max, Nat.add_sub_cancel_left, Nat.div_self ha]
    rw [alignCeiling, if_pos rfl, he, Nat.mul_one]
  · have he : (max n 1 + align - 1) / align = (n - 1) / align + 1 := by
      rw [Nat.max_eq_left (by omega), show n + align - 1 = (n - 1) + align by omega,
        Nat.add_div_right _ ha]
    rw [alignCeiling, if_neg h0, wrap_of_lt (n := align * _) (by omega),
      wrap_of_lt (by omega), he, Nat.mul_add, Nat.mul_one, Nat.add_comm]

end Tupai
