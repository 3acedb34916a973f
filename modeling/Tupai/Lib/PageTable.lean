import Mathlib.Algebra.Order.Ring.Nat
import Mathlib.Tactic.Common
import Mathlib.Tactic.Ring

namespace Tupai.Lib
set_option autoImplicit true

/-- What the entry of a page table says: there is nothing, a table or a page of the smallest size
is at `base`, or a large page is there. -/
inductive Entry where
  | absent
  | table (base : Nat)
  | page (base : Nat)
deriving DecidableEq

/-- The walk of `v` from a table with `n` levels of tables, of `2 ^ ib` entries each, to pages of
`2 ^ pb` bytes. An entry of level `n` has `n` levels of tables below it. -/
def walk (pb ib : Nat) (entry : (level table i : Nat) → Entry) :
    (levels : Nat) → (base v : Nat) → Option Nat
  | 0, frame, v => some (frame + v % 2 ^ pb)
  | n + 1, table, v =>
    match entry n table (v / 2 ^ (pb + ib * n) % 2 ^ ib) with
    | .absent => none
    | .table base => walk pb ib entry n base v
    | .page base => some (base + v % 2 ^ (pb + ib * n))

section

variable {pb ib : Nat} {entry : Nat → Nat → Nat → Entry}

/-- The first `size` bytes that the table is about are mapped to those from `base` on, and the
others are not mapped. -/
def Linear (pb ib : Nat) (entry : Nat → Nat → Nat → Entry) (n table base size : Nat) : Prop :=
  ∀ v, walk pb ib entry n table v =
    if v % 2 ^ (pb + ib * n) < size then some (base + v % 2 ^ (pb + ib * n)) else none

/-- The same of the part of a table that one entry is about. -/
def Leads (pb ib : Nat) (entry : Nat → Nat → Nat → Entry) (n table i base size : Nat) : Prop :=
  (size = 0 ∧ entry n table i = .absent) ∨
    ∃ t, entry n table i = .table t ∧ Linear pb ib entry n t base size

theorem linear_page (pb ib : Nat) (entry : Nat → Nat → Nat → Entry) (frame : Nat) :
    Linear pb ib entry 0 frame frame (2 ^ pb) := by
  intro v
  rw [Nat.mul_zero, Nat.add_zero, if_pos (Nat.mod_lt v (Nat.two_pow_pos pb))]
  rfl

theorem Leads.walk (h : Leads pb ib entry n table i base size)
    (hi : v / 2 ^ (pb + ib * n) % 2 ^ ib = i) :
    walk pb ib entry (n + 1) table v =
      if v % 2 ^ (pb + ib * n) < size then some (base + v % 2 ^ (pb + ib * n)) else none := by
  rw [Lib.walk, hi]
  rcases h with ⟨rfl, he⟩ | ⟨t, he, hlinear⟩
  · rw [he, if_neg (Nat.not_lt_zero _)]
  · rw [he]
    exact hlinear v

/-- A table whose first `k` entries lead to one full part after the other. -/
theorem Linear.succ (hfull : ∀ i < k, Leads pb ib entry n table i (base + 2 ^ (pb + ib * n) * i)
      (2 ^ (pb + ib * n)))
    (hrest : ∀ i, k ≤ i → i < 2 ^ ib → Leads pb ib entry n table i 0 0) :
    Linear pb ib entry (n + 1) table base (2 ^ (pb + ib * n) * k) := by
  intro v
  have hpos : 0 < 2 ^ (pb + ib * n) := Nat.two_pow_pos _
  have hlt := Nat.mod_lt v hpos
  have hsplit : v % 2 ^ (pb + ib * (n + 1)) =
      v % 2 ^ (pb + ib * n) + 2 ^ (pb + ib * n) * (v / 2 ^ (pb + ib * n) % 2 ^ ib) := by
    rw [Nat.mul_succ, ← Nat.add_assoc, Nat.pow_add, Nat.mod_mul]
  rw [hsplit]
  generalize hi : v / 2 ^ (pb + ib * n) % 2 ^ ib = i
  rcases Nat.lt_or_ge i k with hk | hk
  · have hle : 2 ^ (pb + ib * n) * (i + 1) ≤ 2 ^ (pb + ib * n) * k := Nat.mul_le_mul_left _ hk
    rw [Nat.mul_succ] at hle
    rw [(hfull i hk).walk hi, if_pos hlt, if_pos (by omega), Nat.add_assoc, Nat.add_comm (_ * i)]
  · have hle : 2 ^ (pb + ib * n) * k ≤ 2 ^ (pb + ib * n) * i := Nat.mul_le_mul_left _ hk
    have hib : i < 2 ^ ib := hi ▸ Nat.mod_lt _ (Nat.two_pow_pos ib)
    rw [(hrest i hk hib).walk hi, if_neg (Nat.not_lt_zero _), if_neg (by omega)]

end

end Tupai.Lib
