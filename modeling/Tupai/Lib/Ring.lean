import Mathlib.Data.List.Basic
import Mathlib.Logic.Function.Basic
import Mathlib.Data.Nat.ModEq

namespace Tupai.Lib
set_option autoImplicit true

/-- `len` consecutive cells of a ring of `n` cells, from `first` on. -/
def window (n : Nat) (cell : Nat → α) : (first len : Nat) → List α
  | _, 0 => []
  | first, len + 1 => cell (first % n) :: window n cell (first + 1) len

@[simp] theorem length_window (n : Nat) (cell : Nat → α) (first len : Nat) :
    (window n cell first len).length = len := by
  induction len generalizing first with
  | zero => rfl
  | succ len ih => rw [window, List.length_cons, ih]

theorem window_snoc (n : Nat) (cell : Nat → α) (first len : Nat) :
    window n cell first (len + 1) = window n cell first len ++ [cell ((first + len) % n)] := by
  induction len generalizing first with
  | zero => rfl
  | succ len ih =>
    rw [window, ih, window, List.cons_append, Nat.add_right_comm, Nat.add_assoc]

/-- Only the position of the first cell modulo the size of the ring matters. -/
theorem window_mod (n : Nat) (cell : Nat → α) (first len : Nat) :
    window n cell (first % n) len = window n cell first len := by
  induction len generalizing first with
  | zero => rfl
  | succ len ih =>
    rw [window, window, Nat.mod_mod, ← ih (first + 1), ← ih (first % n + 1), Nat.mod_add_mod]

theorem window_update (hout : ∀ i < len, (first + i) % n ≠ j) (v : α) (cell : Nat → α) :
    window n (Function.update cell j v) first len = window n cell first len := by
  induction len generalizing first with
  | zero => rfl
  | succ len ih =>
    have h0 : first % n ≠ j := hout 0 (Nat.succ_pos len)
    rw [window, window, Function.update_of_ne h0, ih fun i hi => ?_]
    have hi' := hout (i + 1) (Nat.succ_lt_succ hi)
    rwa [Nat.add_assoc, Nat.add_comm 1 i]

/-- Offsets below the size of the ring are distinct cells. -/
theorem ring_inj {i j : Nat} (hi : i < n) (hj : j < n) (h : (a + i) % n = (a + j) % n) : i = j :=
  (Nat.ModEq.add_left_cancel' a h).eq_of_lt_of_lt hi hj

end Tupai.Lib
