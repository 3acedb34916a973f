import Mathlib.Data.BitVec
import Mathlib.Logic.Function.Basic
import Mathlib.Tactic.Common
import Mathlib.Tactic.Ring

namespace Tupai.Lib
set_option autoImplicit true

/-- A word of `k` bytes, which is also an address. -/
abbrev Word (k : Nat) := BitVec (8 * k)

def wordSize (k : Nat) : Word k := BitVec.ofNat _ k

abbrev Bytes (k : Nat) := Word k → BitVec 8

namespace Bytes

/-- `n` bytes, the low one first. -/
def gather (mem : Bytes k) : (a : Word k) → (n : Nat) → BitVec (8 * n)
  | _, 0 => 0#0
  | a, n + 1 => mem.gather (a + 1) n ++ mem a

def load (mem : Bytes k) (a : Word k) : Word k := mem.gather a k

def store (mem : Bytes k) (a v : Word k) : Bytes k := fun b =>
  if (b - a).toNat < k then v.extractLsb' (8 * (b - a).toNat) 8 else mem b

def words (mem : Bytes k) : (a : Word k) → (n : Nat) → List (Word k)
  | _, 0 => []
  | a, n + 1 => mem.load a :: mem.words (a + wordSize k) n

/-- No byte of the word at `x` is among the `n` bytes from `a` on. -/
def Apart (a : Word k) (n : Nat) (x : Word k) : Prop :=
  ∀ i < k, n ≤ (x + BitVec.ofNat _ i - a).toNat

instance (a : Word k) (n : Nat) (x : Word k) : Decidable (Apart a n x) :=
  inferInstanceAs (Decidable (∀ i < k, n ≤ (x + BitVec.ofNat _ i - a).toNat))

variable {mem mem' : Bytes k} {a b x v : Word k}

theorem lt_size (k : Nat) : k < 2 ^ (8 * k) :=
  Nat.lt_of_lt_of_le Nat.lt_two_pow_self (Nat.pow_le_pow_right Nat.two_pos (by omega))

theorem toNat_offset (hi : i < 2 ^ (8 * k)) (a : Word k) :
    (a + BitVec.ofNat _ i - a).toNat = i := by
  rw [BitVec.add_comm, BitVec.add_sub_cancel, BitVec.toNat_ofNat, Nat.mod_eq_of_lt hi]

theorem offset_succ (a : Word k) (i : Nat) :
    a + 1 + BitVec.ofNat _ i = a + BitVec.ofNat _ (i + 1) := by
  rw [BitVec.ofNat_add, BitVec.add_comm (BitVec.ofNat _ i), ← BitVec.add_assoc]
  rfl

theorem gather_congr (h : ∀ i < n, mem' (a + BitVec.ofNat _ i) = mem (a + BitVec.ofNat _ i)) :
    mem'.gather a n = mem.gather a n := by
  induction n generalizing a with
  | zero => rfl
  | succ n ih =>
    have h₀ := h 0 (Nat.succ_pos n)
    rw [BitVec.add_zero] at h₀
    rw [gather, gather, h₀, ih]
    intro i hi
    rw [offset_succ]
    exact h (i + 1) (by omega)

theorem load_congr (h : ∀ i < k, mem' (a + BitVec.ofNat _ i) = mem (a + BitVec.ofNat _ i)) :
    mem'.load a = mem.load a := gather_congr h

theorem getLsbD_gather (mem : Bytes k) (a : Word k) (hi : i < 8 * n) :
    (mem.gather a n).getLsbD i = (mem (a + BitVec.ofNat _ (i / 8))).getLsbD (i % 8) := by
  induction n generalizing a i with
  | zero => omega
  | succ n ih =>
    rw [gather, BitVec.getLsbD_append]
    by_cases hlow : i < 8
    · rw [if_pos hlow, Nat.div_eq_of_lt hlow, Nat.mod_eq_of_lt hlow, BitVec.add_zero]
    · obtain ⟨j, rfl⟩ := Nat.exists_eq_add_of_le' (Nat.le_of_not_lt hlow)
      rw [if_neg hlow, Nat.add_sub_cancel, ih _ (by omega), offset_succ,
        Nat.add_div_right j (by decide), Nat.add_mod_right]

theorem words_congr
    (h : ∀ i < k * n, mem' (a + BitVec.ofNat _ i) = mem (a + BitVec.ofNat _ i)) :
    mem'.words a n = mem.words a n := by
  induction n generalizing a with
  | zero => rfl
  | succ n ih =>
    rw [Nat.mul_succ] at h
    rw [words, words, load_congr fun i hi => h i (by omega), ih]
    intro i hi
    rw [wordSize, BitVec.add_assoc, ← BitVec.ofNat_add]
    exact h (k + i) (by omega)

theorem store_of_le (h : k ≤ (b - a).toNat) (v : Word k) : mem.store a v b = mem b :=
  if_neg (Nat.not_lt.2 h)

theorem load_store (mem : Bytes k) (a v : Word k) : (mem.store a v).load a = v := by
  ext i hi
  have hk : i / 8 < k := by omega
  rw [← BitVec.getLsbD_eq_getElem, load, getLsbD_gather _ _ hi, store,
    toNat_offset (Nat.lt_trans hk (lt_size k)), if_pos hk, BitVec.getLsbD_extractLsb',
    Nat.div_add_mod, decide_eq_true (Nat.mod_lt i (by decide)), Bool.true_and,
    BitVec.getLsbD_eq_getElem]

/-- A word that is stored right below other words comes before them. -/
theorem words_push (h : k * (n + 1) ≤ 2 ^ (8 * k)) (mem : Bytes k) (a v : Word k) :
    (mem.store (a - wordSize k) v).words (a - wordSize k) (n + 1) = v :: mem.words a n := by
  rw [words, load_store, BitVec.sub_add_cancel]
  refine congrArg _ (words_congr fun i hi => store_of_le ?_ v)
  rw [Nat.mul_succ] at h
  have he : a + BitVec.ofNat _ i - (a - wordSize k) = a + BitVec.ofNat _ (i + k) - a := by
    rw [BitVec.ofNat_add, wordSize]
    ring
  rw [he, toNat_offset (by omega)]
  exact Nat.le_add_left k i

theorem words_append (mem : Bytes k) (a : Word k) (n n' : Nat) :
    mem.words a (n + n') =
      mem.words a n ++ mem.words (a + BitVec.ofNat _ (k * n)) n' := by
  induction n generalizing a with
  | zero =>
    rw [Nat.zero_add, Nat.mul_zero, BitVec.add_zero]
    rfl
  | succ n ih =>
    rw [Nat.add_right_comm, words, ih, words, List.cons_append, wordSize, BitVec.add_assoc,
      ← BitVec.ofNat_add, Nat.mul_succ, Nat.add_comm k]

theorem length_words (mem : Bytes k) (a : Word k) (n : Nat) : (mem.words a n).length = n := by
  induction n generalizing a with
  | zero => rfl
  | succ n ih => rw [words, List.length_cons, ih]

theorem load_of_words (h : (mem.words a n)[i]? = some v) :
    mem.load (a + BitVec.ofNat _ (k * i)) = v := by
  induction i generalizing a n with
  | zero =>
    cases n with
    | zero => cases h
    | succ n => rwa [Nat.mul_zero, BitVec.add_zero, ← Option.some_inj]
  | succ i ih =>
    cases n with
    | zero => cases h
    | succ n =>
      rw [Nat.mul_succ, Nat.add_comm, BitVec.ofNat_add, ← BitVec.add_assoc]
      exact ih h

theorem Apart.words_store (h : Apart a (k * n) x) (mem : Bytes k) (v : Word k) :
    (mem.store x v).words a n = mem.words a n := by
  refine words_congr fun i hi => store_of_le (Nat.le_of_not_lt fun hlt => ?_) v
  have hfar := h _ hlt
  rw [BitVec.ofNat_toNat, BitVec.setWidth_eq, BitVec.add_comm x, BitVec.sub_add_cancel] at hfar
  rw [toNat_offset (Nat.lt_of_lt_of_le (Nat.lt_of_lt_of_le hi hfar) (BitVec.isLt _).le)] at hfar
  omega

theorem Apart.sub (h : Apart a n x) (hb : b = a + BitVec.ofNat _ o) (ho : o + l ≤ n) :
    Apart b l x := by
  intro i hi
  have hfar := h i hi
  have hlt := (x + BitVec.ofNat _ i - a).isLt
  have hsub : x + BitVec.ofNat _ i - b = x + BitVec.ofNat _ i - a - BitVec.ofNat _ o := by
    rw [hb]
    ring
  have ho' : (BitVec.ofNat (8 * k) o).toNat = o := Nat.mod_eq_of_lt (by omega)
  rw [hsub, BitVec.toNat_sub_of_le (by rw [BitVec.le_def, ho']; omega), ho']
  omega

theorem Apart.load_store (h : Apart a k x) (mem : Bytes k) (v : Word k) :
    (mem.store a v).load x = mem.load x := load_congr fun i hi => store_of_le (h i hi) v

theorem Apart.size_le (h : Apart a (k * n) x) : k * n ≤ 2 ^ (8 * k) := by
  rcases Nat.eq_zero_or_pos k with rfl | hk
  · rw [Nat.zero_mul]
    exact Nat.zero_le _
  · exact Nat.le_of_lt (Nat.lt_of_le_of_lt (h 0 hk) (BitVec.isLt _))

end Bytes

/-- The registers and the memory of a machine whose stack grows downwards, at register `sp`. -/
structure Machine (R : Type) (k : Nat) where
  regs : R → Word k
  mem : Bytes k

/-- Instructions, by their operands. `load` reads at a displacement from a register; the others
that access memory have an absolute address. -/
inductive Instr (R : Type) (k : Nat) where
  | pushImm (v : Word k)
  | push (r : R)
  | pushAbs (a : Word k)
  | pushAll (rs : List R)
  | pop (r : R)
  | popAll (rs : List R)
  | mov (dst src : R)
  | load (dst base : R) (disp : Word k)
  | loadAbs (dst : R) (a : Word k)
  | storeAbs (a : Word k) (src : R)
  | add (r : R) (v : Word k)
  | cld

namespace Machine

variable {R : Type} {k : Nat} [DecidableEq R]

def set (m : Machine R k) (r : R) (v : Word k) : Machine R k :=
  { m with regs := Function.update m.regs r v }

def push (sp : R) (m : Machine R k) (v : Word k) : Machine R k :=
  { m.set sp (m.regs sp - wordSize k) with mem := m.mem.store (m.regs sp - wordSize k) v }

def pop (sp : R) (m : Machine R k) (r : R) : Machine R k :=
  (m.set sp (m.regs sp + wordSize k)).set r (m.mem.load (m.regs sp))

/-- The stack pointer itself is not popped. -/
def popOther (sp : R) (m : Machine R k) (r : R) : Machine R k :=
  if r = sp then m.set sp (m.regs sp + wordSize k) else m.pop sp r

/-- The last value is pushed last. -/
def pushAll (sp : R) (m : Machine R k) (vals : List (Word k)) : Machine R k :=
  vals.foldl (push sp) m

def popAll (sp : R) (m : Machine R k) (rs : List R) : Machine R k := rs.foldl (popOther sp) m

/-- One instruction. There is no direction flag, for there are no string instructions. -/
def step (sp : R) (m : Machine R k) : Instr R k → Machine R k
  | .pushImm v => m.push sp v
  | .push r => m.push sp (m.regs r)
  | .pushAbs a => m.push sp (m.mem.load a)
  | .pushAll rs => m.pushAll sp (rs.map m.regs)
  | .pop r => m.pop sp r
  | .popAll rs => m.popAll sp rs
  | .mov dst src => m.set dst (m.regs src)
  | .load dst base disp => m.set dst (m.mem.load (m.regs base + disp))
  | .loadAbs dst a => m.set dst (m.mem.load a)
  | .storeAbs a src => { m with mem := m.mem.store a (m.regs src) }
  | .add r v => m.set r (m.regs r + v)
  | .cld => m

def exec (sp : R) (m : Machine R k) (program : List (Instr R k)) : Machine R k :=
  program.foldl (step sp) m

variable {sp : R} {m : Machine R k} {rs : List R}

@[simp] theorem set_same (m : Machine R k) (r : R) (v : Word k) : (m.set r v).regs r = v :=
  Function.update_self ..

theorem set_other (m : Machine R k) (h : r' ≠ r) (v : Word k) : (m.set r v).regs r' = m.regs r' :=
  Function.update_of_ne h ..

theorem push_sp (m : Machine R k) (v : Word k) : (m.push sp v).regs sp = m.regs sp - wordSize k :=
  set_same ..

theorem push_other (m : Machine R k) (h : r ≠ sp) (v : Word k) :
    (m.push sp v).regs r = m.regs r := set_other m h _

theorem pushAll_sp (m : Machine R k) (vals : List (Word k)) :
    (m.pushAll sp vals).regs sp = m.regs sp - BitVec.ofNat _ (k * vals.length) := by
  induction vals generalizing m with
  | nil => exact (BitVec.sub_zero _).symm
  | cons v vals ih =>
    rw [pushAll, List.foldl_cons, ← pushAll, ih, push_sp, List.length_cons, Nat.mul_succ,
      BitVec.ofNat_add, wordSize]
    ring

theorem pushAll_other (m : Machine R k) (h : r ≠ sp) (vals : List (Word k)) :
    (m.pushAll sp vals).regs r = m.regs r := by
  induction vals generalizing m with
  | nil => rfl
  | cons v vals ih => rw [pushAll, List.foldl_cons, ← pushAll, ih, push_other m h]

/-- What was pushed lies below what was there. -/
theorem pushAll_words (sp : R) (h : k * (vals.length + n) ≤ 2 ^ (8 * k)) (m : Machine R k) :
    (m.pushAll sp vals).mem.words ((m.pushAll sp vals).regs sp) (vals.length + n) =
      vals.reverse ++ m.mem.words (m.regs sp) n := by
  induction vals generalizing m n with
  | nil =>
    rw [List.length_nil, Nat.zero_add]
    rfl
  | cons v vals ih =>
    rw [List.length_cons, Nat.add_right_comm, Nat.add_assoc] at h ⊢
    rw [pushAll, List.foldl_cons, ← pushAll, ih h, List.reverse_cons, List.append_assoc,
      List.singleton_append, push_sp]
    refine congrArg _ (Bytes.words_push ?_ m.mem (m.regs sp) v)
    exact Nat.le_trans (Nat.mul_le_mul_left k (Nat.le_add_left _ _)) h

theorem pushAll_rest (h : k * (vals.length + n) ≤ 2 ^ (8 * k)) (m : Machine R k) :
    (m.pushAll sp vals).mem.words (m.regs sp) n = m.mem.words (m.regs sp) n := by
  have hwords := pushAll_words sp h m
  rw [Bytes.words_append, pushAll_sp, BitVec.sub_add_cancel] at hwords
  refine List.append_inj_right hwords ?_
  rw [Bytes.length_words, List.length_reverse]

theorem pushAll_load (h : Bytes.Apart a n x) (hsp : m.regs sp = a + BitVec.ofNat _ o)
    (hle : k * vals.length ≤ o) (ho : o ≤ n) :
    (m.pushAll sp vals).mem.load x = m.mem.load x := by
  induction vals generalizing m o with
  | nil => rfl
  | cons v vals ih =>
    rw [List.length_cons, Nat.mul_succ] at hle
    have hlow : m.regs sp - wordSize k = a + BitVec.ofNat _ (o - k) := by
      rw [hsp, wordSize, sub_eq_iff_eq_add, BitVec.add_assoc, ← BitVec.ofNat_add,
        Nat.sub_add_cancel (by omega)]
    rw [pushAll, List.foldl_cons, ← pushAll, ih (o := o - k) ((push_sp m v).trans hlow) (by omega)
      (by omega)]
    exact (h.sub hlow (by omega)).load_store m.mem v

theorem exec_append (sp : R) (m : Machine R k) (p p' : List (Instr R k)) :
    m.exec sp (p ++ p') = (m.exec sp p).exec sp p' := List.foldl_append

theorem exec_pushAll (m : Machine R k) (rs : List R) :
    m.exec sp [.pushAll rs] = m.pushAll sp (rs.map m.regs) := rfl

theorem exec_popAll (m : Machine R k) (dst src : R) (rs : List R) :
    m.exec sp [.mov dst src, .popAll rs] = (m.set dst (m.regs src)).popAll sp rs := rfl

/-- The registers are not the stack pointer, so that pushing one changes none of the others. -/
theorem exec_push (h : sp ∉ rs) (m : Machine R k) :
    m.exec sp (rs.map .push) = m.pushAll sp (rs.map m.regs) := by
  suffices hsame : ∀ m' : Machine R k, (∀ r ∈ rs, m'.regs r = m.regs r) →
      m'.exec sp (rs.map .push) = m'.pushAll sp (rs.map m.regs) from hsame m fun _ _ => rfl
  induction rs with
  | nil => exact fun _ _ => rfl
  | cons r rs ih =>
    rw [List.mem_cons, not_or] at h
    obtain ⟨hr, hrs⟩ := h
    intro m' hm'
    rw [List.map_cons, List.map_cons, exec, List.foldl_cons, pushAll, List.foldl_cons, step,
      hm' r List.mem_cons_self]
    refine ih hrs (m'.push sp (m.regs r)) fun r' hr' => ?_
    have hne : r' ≠ sp := fun he => hrs (he ▸ hr')
    rw [push_other _ hne]
    exact hm' r' (List.mem_cons_of_mem r hr')

theorem exec_pop (h : sp ∉ rs) (m : Machine R k) :
    m.exec sp (rs.map .pop) = m.popAll sp rs := by
  induction rs generalizing m with
  | nil => rfl
  | cons r rs ih =>
    rw [List.mem_cons, not_or] at h
    obtain ⟨hr, hrs⟩ := h
    rw [List.map_cons, exec, List.foldl_cons, ← exec, ih hrs, popAll, popAll, List.foldl_cons, step,
      popOther, if_neg (Ne.symm hr)]

theorem popOther_mem (m : Machine R k) (r : R) : (m.popOther sp r).mem = m.mem := by
  rw [popOther]
  split_ifs <;> rfl

theorem popOther_sp (m : Machine R k) (r : R) :
    (m.popOther sp r).regs sp = m.regs sp + wordSize k := by
  rw [popOther]
  split_ifs with h
  · exact set_same ..
  · rw [pop, set_other _ (Ne.symm h), set_same]

theorem popOther_other (m : Machine R k) (h : r ≠ sp) (r' : R) :
    (m.popOther sp r').regs r = if r = r' then m.mem.load (m.regs sp) else m.regs r := by
  rw [popOther]
  split_ifs with hsp hr hr
  · exact absurd (hr.trans hsp) h
  · exact set_other _ h _
  · rw [pop, hr, set_same]
  · rw [pop, set_other _ hr, set_other _ h]

theorem popAll_sp (m : Machine R k) (rs : List R) :
    (m.popAll sp rs).regs sp = m.regs sp + BitVec.ofNat _ (k * rs.length) := by
  induction rs generalizing m with
  | nil => exact (BitVec.add_zero _).symm
  | cons r rs ih =>
    rw [popAll, List.foldl_cons, ← popAll, ih, popOther_sp, List.length_cons, Nat.mul_succ,
      BitVec.add_assoc, Nat.add_comm, BitVec.ofNat_add, wordSize]

variable {f : R → Word k}

/-- Each register but the stack pointer gets the word at its place. -/
theorem popAll_other (h : m.mem.words (m.regs sp) rs.length = rs.map f) (hr : r ≠ sp) :
    (m.popAll sp rs).regs r = if r ∈ rs then f r else m.regs r := by
  induction rs generalizing m with
  | nil => rfl
  | cons r' rs ih =>
    rw [List.length_cons, Bytes.words, List.map_cons, List.cons_eq_cons] at h
    have hrest : (m.popOther sp r').mem.words ((m.popOther sp r').regs sp) rs.length =
        rs.map f := by
      rw [popOther_mem, popOther_sp]
      exact h.2
    rw [popAll, List.foldl_cons, ← popAll, ih hrest, popOther_other m hr, h.1]
    by_cases he : r = r'
    · rw [if_pos he, he, ite_self, if_pos List.mem_cons_self]
    · rw [if_neg he]
      simp only [List.mem_cons, he, false_or]

end Machine

/-- What stands in a data section. -/
inductive Directive (L : Type) where
  | label (l : L)
  | data (size : Nat) (operands : List Nat)

/-- A data directive makes as many bytes as its operands have, and none without operands. -/
def Directive.bytes : Directive L → Nat
  | .label _ => 0
  | .data size operands => size * operands.length

def labelAddress [DecidableEq L] (l : L) : (a : Word k) → List (Directive L) → Word k
  | a, [] => a
  | a, d :: ds =>
    match d with
    | .label l' => if l' = l then a else labelAddress l a ds
    | .data .. => labelAddress l (a + BitVec.ofNat _ d.bytes) ds

end Tupai.Lib
