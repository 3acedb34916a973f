import Mathlib.Tactic.Common

namespace Tupai.Lib
set_option autoImplicit true

/-- A counting loop with `left` rounds to go. -/
def countUp (body : Int → σ → σ) : (left : Nat) → (i : Int) → σ → σ
  | 0, _, s => s
  | left + 1, i, s => countUp body left (i + 1) (body i s)

/-- The loop `for (int i = lo; i < hi; i ++)`. -/
def forRange (lo hi : Int) (body : Int → σ → σ) (s : σ) : σ := countUp body (hi - lo).toNat lo s

theorem countUp_invariant {lo hi : Int} {I : Int → σ → Prop} (left : Nat) (hend : lo + left = hi)
    (h : I lo s) (hstep : ∀ i s, lo ≤ i → i < hi → I i s → I (i + 1) (body i s)) :
    I hi (countUp body left lo s) := by
  induction left generalizing lo s with
  | zero =>
    obtain rfl : lo = hi := by omega
    exact h
  | succ left ih =>
    refine ih (by omega) (hstep lo s (Int.le_refl lo) (by omega) h) fun i s hle => ?_
    exact hstep i s (by omega)

/-- What holds before the first round, and is kept by each, holds after the last one. -/
theorem forRange_invariant {I : Int → σ → Prop} (hle : lo ≤ hi) (h : I lo s)
    (hstep : ∀ i s, lo ≤ i → i < hi → I i s → I (i + 1) (body i s)) :
    I hi (forRange lo hi body s) :=
  countUp_invariant _ (by omega) h hstep

end Tupai.Lib
