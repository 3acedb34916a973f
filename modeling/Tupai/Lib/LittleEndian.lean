import Mathlib.Algebra.Order.Ring.Nat
import Mathlib.Data.BitVec
import Mathlib.Tactic.Common
import Mathlib.Tactic.Ring

namespace Tupai.Lib
set_option autoImplicit true

/-- The number in the `n` bytes from `p` on, the low one first. -/
def leNat (mem : Nat → BitVec 8) : (p n : Nat) → Nat
  | _, 0 => 0
  | p, n + 1 => (mem p).toNat + 2 ^ 8 * leNat mem (p + 1) n

def leStore (mem : Nat → BitVec 8) (p n v : Nat) : Nat → BitVec 8 := fun a =>
  if p ≤ a ∧ a < p + n then BitVec.ofNat 8 (v / 2 ^ (8 * (a - p))) else mem a

/-- One number of `n` bytes after the other is stored, each at its address. -/
def leStores (n : Nat) (mem : Nat → BitVec 8) (l : List (Nat × Nat)) : Nat → BitVec 8 :=
  l.foldl (fun mem x => leStore mem x.1 n x.2) mem

variable {mem mem' : Nat → BitVec 8} {l : List (Nat × Nat)}

theorem leNat_congr (h : ∀ a, p ≤ a → a < p + n → mem a = mem' a) :
    leNat mem p n = leNat mem' p n := by
  induction n generalizing p with
  | zero => rfl
  | succ n ih =>
    rw [leNat, leNat, h p (Nat.le_refl p) (by omega), ih]
    exact fun a hle hlt => h a (by omega) (by omega)

theorem leNat_zero (h : ∀ a, p ≤ a → a < p + n → mem a = 0#8) : leNat mem p n = 0 := by
  induction n generalizing p with
  | zero => rfl
  | succ n ih =>
    rw [leNat, h p (Nat.le_refl p) (by omega), ih]
    · rfl
    · exact fun a hle hlt => h a (by omega) (by omega)

theorem leNat_add (mem : Nat → BitVec 8) (p m n : Nat) :
    leNat mem p (m + n) = leNat mem p m + 2 ^ (8 * m) * leNat mem (p + m) n := by
  induction m generalizing p with
  | zero =>
    rw [Nat.zero_add, leNat, Nat.mul_zero, Nat.pow_zero, Nat.one_mul, Nat.zero_add, Nat.add_zero]
  | succ m ih =>
    rw [Nat.add_right_comm, leNat, ih, leNat, Nat.add_right_comm p 1 m, ← Nat.add_assoc p m 1,
      Nat.mul_succ, Nat.pow_add]
    ring

theorem leStore_other (h : a < p ∨ p + n ≤ a) (v : Nat) : leStore mem p n v a = mem a :=
  if_neg fun ⟨hle, hlt⟩ => by omega

theorem leNat_leStore (mem : Nat → BitVec 8) (p n v : Nat) :
    leNat (leStore mem p n v) p n = v % 2 ^ (8 * n) := by
  suffices h : ∀ m ≤ n, leNat (leStore mem p n v) (p + (n - m)) m =
      v / 2 ^ (8 * (n - m)) % 2 ^ (8 * m) by
    have hall := h n (Nat.le_refl n)
    rwa [Nat.sub_self, Nat.add_zero, Nat.mul_zero, Nat.pow_zero, Nat.div_one] at hall
  intro m hm
  induction m with
  | zero => rw [leNat, Nat.mul_zero, Nat.pow_zero, Nat.mod_one]
  | succ m ih =>
    have hnext : n - m = n - (m + 1) + 1 := by omega
    have hbyte : (leStore mem p n v (p + (n - (m + 1)))).toNat =
        v / 2 ^ (8 * (n - (m + 1))) % 2 ^ 8 := by
      rw [leStore, if_pos ⟨by omega, by omega⟩, Nat.add_sub_cancel_left, BitVec.toNat_ofNat]
    have hrest := ih (by omega)
    rw [hnext, ← Nat.add_assoc, Nat.mul_succ, Nat.pow_add, ← Nat.div_div_eq_div_mul] at hrest
    rw [leNat, hbyte, hrest, Nat.mul_succ, Nat.add_comm (8 * m), Nat.pow_add, Nat.mod_mul]

theorem leStores_other (h : ∀ x ∈ l, a < x.1 ∨ x.1 + n ≤ a) : leStores n mem l a = mem a := by
  induction l generalizing mem with
  | nil => rfl
  | cons x l ih =>
    rw [List.forall_mem_cons] at h
    rw [leStores, List.foldl_cons, ← leStores, ih h.2, leStore_other h.1]

/-- What is stored stays when everything else is stored apart from it. -/
theorem leNat_leStores (hx : (p, v) ∈ l)
    (h : ∀ x ∈ l, (x.1 = p → x.2 = v) ∧ (x.1 ≠ p → p + n ≤ x.1 ∨ x.1 + n ≤ p)) :
    leNat (leStores n mem l) p n = v % 2 ^ (8 * n) := by
  induction l generalizing mem with
  | nil => cases hx
  | cons x l ih =>
    rw [leStores, List.foldl_cons, ← leStores]
    rw [List.forall_mem_cons] at h
    by_cases hl : (p, v) ∈ l
    · exact ih hl h.2
    · obtain rfl : (p, v) = x := (List.mem_cons.1 hx).resolve_right hl
      rw [← leNat_leStore mem p n v]
      refine leNat_congr fun a hle hlt => leStores_other fun x hxl => ?_
      have hne : x.1 ≠ p := by
        intro he
        have hv := (h.2 x hxl).1 he
        exact hl (by rwa [← he, ← hv])
      have hapart := (h.2 x hxl).2 hne
      omega

theorem apart_of_dvd {m p q : Nat} (hp : m ∣ p) (hq : m ∣ q) (hne : q ≠ p) :
    p + m ≤ q ∨ q + m ≤ p := by
  obtain ⟨a, rfl⟩ := hp
  obtain ⟨b, rfl⟩ := hq
  rcases Nat.lt_trichotomy a b with hlt | rfl | hgt
  · exact .inl (Nat.mul_succ m a ▸ Nat.mul_le_mul_left m hlt)
  · exact absurd rfl hne
  · exact .inr (Nat.mul_succ m b ▸ Nat.mul_le_mul_left m hgt)

section slots

variable (hn : n ≤ m) (hslots : ∀ x ∈ l, m ∣ x.1)
  (hzero : ∀ a, p ≤ a → a < p + m → mem a = 0#8)

include hn hslots hzero

/-- Numbers of `n` bytes in slots of `m` bytes that held zeros. -/
theorem leNat_stored (hx : (p, v) ∈ l) (hsame : ∀ x ∈ l, x.1 = p → x.2 = v)
    (hv : v < 2 ^ (8 * n)) : leNat (leStores n mem l) p m = v := by
  have hp : m ∣ p := hslots _ hx
  obtain ⟨k, rfl⟩ := Nat.exists_eq_add_of_le hn
  have hlow : leNat (leStores n mem l) p n = v := by
    rw [leNat_leStores hx fun x hxl => ⟨hsame x hxl, fun hne => ?_⟩, Nat.mod_eq_of_lt hv]
    have hapart := apart_of_dvd hp (hslots x hxl) hne
    omega
  have hhigh : leNat (leStores n mem l) (p + n) k = 0 := by
    refine leNat_zero fun a hle hlt => ?_
    rw [← hzero a (by omega) (by omega)]
    refine leStores_other fun x hxl => ?_
    by_cases he : x.1 = p
    · omega
    · have hapart := apart_of_dvd hp (hslots x hxl) he
      omega
  rw [leNat_add, hlow, hhigh, Nat.mul_zero, Nat.add_zero]

theorem leNat_unstored (hp : m ∣ p) (hx : ∀ x ∈ l, x.1 ≠ p) :
    leNat (leStores n mem l) p m = 0 := by
  refine leNat_zero fun a hle hlt => ?_
  rw [← hzero a hle hlt]
  refine leStores_other fun x hxl => ?_
  have hapart := apart_of_dvd hp (hslots x hxl) (hx x hxl)
  omega

end slots

/-- Rounds that each store numbers which do not depend on memory. -/
theorem foldl_leStores {body : (Nat → BitVec 8) → α → Nat → BitVec 8} {w : α → List (Nat × Nat)}
    (h : ∀ mem i, body mem i = leStores n mem (w i)) (is : List α) (mem : Nat → BitVec 8) :
    is.foldl body mem = leStores n mem (is.flatMap w) := by
  induction is generalizing mem with
  | nil => rfl
  | cons i is ih =>
    rw [List.foldl_cons, ih, h, List.flatMap_cons, leStores, leStores, leStores, List.foldl_append]

/-- A field of a packed structure, and what is stored in it. -/
structure Field where
  offset : Nat
  bytes : Nat
  value : Nat

def Field.Apart (f g : Field) : Prop :=
  f.offset + f.bytes ≤ g.offset ∨ g.offset + g.bytes ≤ f.offset

instance (f g : Field) : Decidable (f.Apart g) :=
  inferInstanceAs (Decidable (f.offset + f.bytes ≤ g.offset ∨ g.offset + g.bytes ≤ f.offset))

/-- The fields of the structure at `p` are stored one after the other. -/
def leFields (mem : Nat → BitVec 8) (p : Nat) (fields : List Field) : Nat → BitVec 8 :=
  fields.foldl (fun mem f => leStore mem (p + f.offset) f.bytes f.value) mem

section fields

variable {fields : List Field}

theorem leFields_other (h : ∀ f ∈ fields, a < p + f.offset ∨ p + f.offset + f.bytes ≤ a) :
    leFields mem p fields a = mem a := by
  induction fields generalizing mem with
  | nil => rfl
  | cons f fields ih =>
    rw [List.forall_mem_cons] at h
    rw [leFields, List.foldl_cons, ← leFields, ih h.2, leStore_other h.1]

theorem leNat_leFields (hfields : fields.Pairwise Field.Apart) (hf : f ∈ fields) :
    leNat (leFields mem p fields) (p + f.offset) f.bytes = f.value % 2 ^ (8 * f.bytes) := by
  induction fields generalizing mem with
  | nil => cases hf
  | cons g fields ih =>
    obtain ⟨hg, hfields⟩ := List.pairwise_cons.1 hfields
    rw [leFields, List.foldl_cons, ← leFields]
    rcases List.mem_cons.1 hf with rfl | hmem
    · rw [← leNat_leStore mem (p + f.offset) f.bytes f.value]
      refine leNat_congr fun a hle hlt => leFields_other fun g hmem => ?_
      have hapart := hg g hmem
      rw [Field.Apart] at hapart
      omega
    · exact ih hfields hmem

end fields

end Tupai.Lib
