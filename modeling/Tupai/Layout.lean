import Tupai.Construct

namespace Tupai
set_option autoImplicit true

/-- The bytes that a map of two bits for each of `n` blocks takes up. -/
def mapBytes (n : Nat) : Nat := (n + 3) / 4

/-- The blocks and the packed map behind them lie in the region, and an aligned region has room for
no more blocks. -/
structure LaidOut (start size : Nat) (pool : Pool) : Prop where
  aligned : pool.body % 16 = 0
  above : start ≤ pool.body
  map : pool.map = pool.body + pool.blockSize * pool.blockCount
  fits : pool.body + pool.blockSize * pool.blockCount + mapBytes pool.blockCount ≤ start + size
  largest : start % 16 = 0 → ∀ n,
    pool.body + pool.blockSize * n + mapBytes n ≤ start + size → n ≤ pool.blockCount

theorem fits_iff (size blockSize n : Nat) :
    blockSize * n + mapBytes n ≤ size ↔ n ≤ 4 * size / (4 * blockSize + 1) := by
  have hmul : n * (4 * blockSize + 1) = 4 * (blockSize * n) + n := by
    rw [Nat.mul_add, Nat.mul_one, Nat.mul_left_comm, Nat.mul_comm n]
  rw [Nat.le_div_iff_mul_le (Nat.succ_pos _), hmul, mapBytes]
  omega

theorem blocksFor_eq (hsize : size < 2 ^ 60) (hbs : blockSize < 2 ^ 60) (hpos : 0 < blockSize)
    (hw : size < 2 ^ w) : blocksFor w size blockSize = 4 * size / (4 * blockSize + 1) := by
  have hle : 4 * size / (4 * blockSize + 1) ≤ size :=
    calc 4 * size / (4 * blockSize + 1)
      _ ≤ 4 * size / 4 := Nat.div_le_div_left (by omega) (by decide)
      _ = size := Nat.mul_div_cancel_left size (by decide)
  rw [blocksFor, wrap_of_lt (n := 4 * size) (by omega), wrap_of_lt (n := 4 * blockSize) (by omega),
    wrap_of_lt (n := _ + 1) (by omega), wrap_of_lt (by omega)]

/-- The difference has the wrong sign: `body` is as far below `start` as the next multiple of 16 is
above it. -/
theorem poolConstruct_body (mem : Mem) (blockSize : Nat) (h0 : 0 < start)
    (hstart : start + 16 ≤ 2 ^ w) : (poolConstruct w mem start size blockSize).2.1.body =
      wrap w (start + wrapSub w start (16 * ((start + 15) / 16))) := by
  have halign : alignCeiling w start 16 = 16 * ((start + 15) / 16) := by
    rw [alignCeiling_exact (by decide) hstart]
    congr 2
    omega
  rw [← halign]
  rfl

/-- An aligned body of an unaligned region is below the region. -/
theorem poolConstruct_unaligned (mem : Mem) (blockSize : Nat) (h0 : 0 < start)
    (hsize : 16 ≤ size) (hend : start + size < 2 ^ w) (h16 : start % 16 ≠ 0)
    (hbody : (poolConstruct w mem start size blockSize).2.1.body % 16 = 0) :
    (poolConstruct w mem start size blockSize).2.1.body < start := by
  have hw : 4 ≤ w := Nat.le_of_lt ((Nat.pow_lt_pow_iff_right Nat.one_lt_two).1 (by omega))
  have hdvd : 2 ^ w % 16 = 0 := Nat.mod_eq_zero_of_dvd (Nat.pow_dvd_pow 2 hw)
  rw [poolConstruct_body mem blockSize h0 (by omega)] at hbody ⊢
  have hdiff : wrapSub w start (16 * ((start + 15) / 16)) =
      start + (2 ^ w - 16 * ((start + 15) / 16)) := wrap_of_lt (by omega)
  rw [hdiff] at hbody ⊢
  by_cases hlow : 2 * start < 16 * ((start + 15) / 16)
  · rw [wrap_of_lt (by omega)] at hbody
    omega
  · have hbelow : wrap w (start + (start + (2 ^ w - 16 * ((start + 15) / 16)))) =
        start + (start + (2 ^ w - 16 * ((start + 15) / 16))) - 2 ^ w := by
      rw [wrap, Nat.mod_eq_sub_mod (by omega), Nat.mod_eq_of_lt (by omega)]
    omega

theorem poolConstruct_laidOut (h16 : start % 16 = 0) (h0 : 0 < start) (hlt : size < 2 ^ 60)
    (hpos : 1 ≤ blockSize) (hbs : blockSize < 2 ^ 60) (hend : start + size < 2 ^ w) (hw : w ≤ 64)
    (mem : Mem) : LaidOut start size (poolConstruct w mem start size blockSize).2.1 := by
  rw [poolConstruct_eq h16 h0 hend hw]
  have hcount := blocksFor_eq (w := w) hlt hbs hpos (by omega)
  have hfits := fits_iff size blockSize
  have hfull := (hfits _).2 (Nat.le_of_eq hcount)
  constructor
  · exact h16
  · exact Nat.le_refl start
  · dsimp only
    rw [wrap_of_lt (n := blockSize * _) (by omega), wrap_of_lt (by omega)]
  · dsimp only
    omega
  · dsimp only
    intro _ n hn
    rw [hcount, ← hfits]
    omega

/-- `pool_construct` lays the pool out as intended exactly when the region is aligned. -/
theorem laidOut_iff (h0 : 0 < start) (hsize : 16 ≤ size) (hlt : size < 2 ^ 60)
    (hpos : 1 ≤ blockSize) (hbs : blockSize < 2 ^ 60) (hend : start + size < 2 ^ w) (hw : w ≤ 64) :
    LaidOut start size (poolConstruct w mem start size blockSize).2.1 ↔ start % 16 = 0 := by
  constructor
  · intro h
    by_contra h16
    have hbelow := poolConstruct_unaligned mem blockSize h0 hsize hend h16 h.aligned
    exact absurd h.above (Nat.not_le_of_lt hbelow)
  · intro h16
    exact poolConstruct_laidOut h16 h0 hlt hpos hbs hend hw mem

theorem laidOut_page :
    LaidOut 0x200000 4096 (poolConstruct 64 (fun _ => 0) 0x200000 4096 1024).2.1 :=
  (laidOut_iff (by decide) (by decide) (by decide) (by decide) (by decide) (by decide)
    (by decide)).2 (by decide)

/-- The pool of the kernel in a region that starts 8 bytes above a multiple of 16: its body starts
8 bytes below the region. -/
theorem not_laidOut :
    ¬ LaidOut 0x100008 (4096 * 4096)
      (poolConstruct 64 (fun _ => 0) 0x100008 (4096 * 4096) 64).2.1 := by
  intro h
  have hbody : (poolConstruct 64 (fun _ => 0) 0x100008 (4096 * 4096) 64).2.1.body = 0x100000 := by
    decide +kernel
  exact absurd (hbody ▸ h.above) (by decide)

end Tupai
