import Tupai.Lib.Machine

namespace Tupai.Lib
set_option autoImplicit true

/-- A part of the memory, in which a stack grows downwards. -/
structure Region (k : Nat) where
  start : Word k
  size : Nat
  hsize : size ≤ 2 ^ (8 * k)

namespace Region

def place (g : Region k) (o : Nat) : Word k := g.start + BitVec.ofNat _ o

def offset (g : Region k) (a : Word k) : Nat := (a - g.start).toNat

/-- No address is in both. -/
def Apart (g g' : Region k) : Prop := ∀ a, g.offset a < g.size → g'.size ≤ g'.offset a

/-- How far up a stack may still be used where frames lie at these addresses, the last one first. -/
def limit (g : Region k) : (addresses : List (Word k)) → Nat
  | [] => g.size
  | p :: _ => g.offset p

/-- Frames by their addresses and sizes, each of them below the ones before it. -/
def Stacked (g : Region k) : (frames : List (Word k × Nat)) → Prop
  | [] => True
  | (p, n) :: frames => g.offset p + n ≤ g.limit (frames.map Prod.fst) ∧ g.Stacked frames

/-- Nothing is written outside of this part of the region. -/
def WritesIn (g : Region k) (lo hi : Nat) (mem mem' : Bytes k) : Prop :=
  ∀ a, g.offset a < lo ∨ hi ≤ g.offset a → mem' a = mem a

variable {g g' : Region k} {mem mem' mem'' : Bytes k} {frames : List (Word k × Nat)}

theorem offset_place (g : Region k) (ho : o < 2 ^ (8 * k)) : g.offset (g.place o) = o :=
  Bytes.toNat_offset ho g.start

theorem place_sub (g : Region k) (hd : d ≤ o) :
    g.place o - BitVec.ofNat _ d = g.place (o - d) := by
  rw [place, place, sub_eq_iff_eq_add, BitVec.add_assoc, ← BitVec.ofNat_add, Nat.sub_add_cancel hd]

theorem place_offset (g : Region k) (a : Word k) : g.place (g.offset a) = a := by
  rw [place, offset, BitVec.ofNat_toNat, BitVec.setWidth_eq, BitVec.add_comm,
    BitVec.sub_add_cancel]

theorem offset_add (h : g.offset p + i < 2 ^ (8 * k)) :
    g.offset (p + BitVec.ofNat _ i) = g.offset p + i := by
  have hsum : p + BitVec.ofNat _ i = g.place (g.offset p + i) := by
    rw [place, BitVec.ofNat_add, ← BitVec.add_assoc, ← place, place_offset]
  rw [hsum, offset_place g h]

theorem Stacked.limit_le (h : g.Stacked frames) : g.limit (frames.map Prod.fst) ≤ g.size := by
  induction frames with
  | nil => exact Nat.le_refl _
  | cons _ _ ih => exact (Nat.le_add_right ..).trans (h.1.trans (ih h.2))

theorem Stacked.inside (h : g.Stacked frames) (hp : (p, n) ∈ frames) :
    g.limit (frames.map Prod.fst) ≤ g.offset p ∧ g.offset p + n ≤ g.size := by
  induction frames with
  | nil => cases hp
  | cons q frames ih =>
    rcases List.mem_cons.1 hp with rfl | hp
    · exact ⟨Nat.le_refl _, h.1.trans h.2.limit_le⟩
    · obtain ⟨hlo, hhi⟩ := ih h.2 hp
      exact ⟨(Nat.le_add_right ..).trans (h.1.trans hlo), hhi⟩

theorem Stacked.lt (h : g.Stacked (q :: frames)) (hq : 0 < q.2) (hp : (p, n) ∈ frames) :
    g.offset q.1 < g.offset p := by
  have hlimit := (h.2.inside hp).1
  have hle := h.1
  omega

theorem Stacked.of_append (h : g.Stacked (dropped ++ frames)) : g.Stacked frames := by
  induction dropped with
  | nil => exact h
  | cons _ _ ih => exact ih h.2

theorem WritesIn.trans (h : g.WritesIn lo hi mem mem') (h' : g.WritesIn lo hi mem' mem'') :
    g.WritesIn lo hi mem mem'' := fun a ha => (h' a ha).trans (h a ha)

theorem WritesIn.mono (h : g.WritesIn lo hi mem mem') (hlo : lo' ≤ lo) (hhi : hi ≤ hi') :
    g.WritesIn lo' hi' mem mem' := fun a ha => h a (by omega)

/-- Writing below a limit leaves the frames above it alone. -/
theorem WritesIn.frame (h : g.WritesIn lo hi mem mem') (hhi : hi ≤ g.offset p)
    (hsize : g.offset p + n ≤ g.size) (hi : i < n) :
    mem' (p + BitVec.ofNat _ i) = mem (p + BitVec.ofNat _ i) := by
  have hle := g.hsize
  apply h
  rw [offset_add (by omega)]
  omega

/-- And it leaves the frames of all other stacks alone. -/
theorem WritesIn.other (h : g.WritesIn lo hi mem mem') (hhi : hi ≤ g.size) (hapart : g'.Apart g)
    (hsize : g'.offset p + n ≤ g'.size) (hi : i < n) :
    mem' (p + BitVec.ofNat _ i) = mem (p + BitVec.ofNat _ i) := by
  have hle := g'.hsize
  have hfar := hapart (p + BitVec.ofNat _ i) (by rw [offset_add (by omega)]; omega)
  exact h _ (.inr (hhi.trans hfar))

end Region

/-- The registers that an instruction pops. -/
def Instr.pops : Instr R k → List R
  | .pop r => [r]
  | .popAll rs => rs
  | _ => []

namespace Machine

variable {R : Type} {k : Nat} [DecidableEq R] {sp : R} {m : Machine R k} {g : Region k}

theorem pushAll_place (h : m.regs sp = g.place o) (hle : k * vals.length ≤ o) :
    (m.pushAll sp vals).regs sp = g.place (o - k * vals.length) := by
  rw [pushAll_sp, h, g.place_sub hle]

theorem pushAll_writes (h : m.regs sp = g.place o) (hle : k * vals.length ≤ o) (ho : o ≤ g.size) :
    g.WritesIn (o - k * vals.length) o m.mem (m.pushAll sp vals).mem := by
  induction vals generalizing m o with
  | nil => exact fun _ _ => rfl
  | cons v vals ih =>
    rw [List.length_cons, Nat.mul_succ] at hle ⊢
    have hsize := g.hsize
    have hlow : (m.push sp v).regs sp = g.place (o - k) := by
      rw [push_sp, h, wordSize, g.place_sub (by omega)]
    have hrest := ih hlow (by omega) (by omega)
    rw [Nat.sub_sub, Nat.add_comm k] at hrest
    refine .trans (fun a ha => Bytes.store_of_le (Nat.le_of_not_lt fun hlt => ?_) v)
      (hrest.mono (Nat.le_refl _) (Nat.sub_le ..))
    have hbase : m.regs sp - wordSize k = g.place (o - k) := (push_sp m v).symm.trans hlow
    have ha' : a = g.place (o - k) + BitVec.ofNat _ (a - g.place (o - k)).toNat := by
      rw [BitVec.ofNat_toNat, BitVec.setWidth_eq, BitVec.add_comm, BitVec.sub_add_cancel]
    have hoff : g.offset (g.place (o - k)) = o - k := by
      apply g.offset_place
      rcases Nat.eq_zero_or_pos k with rfl | hk
      · omega
      · omega
    rw [hbase] at hlt
    rw [ha', Region.offset_add (by rw [hoff]; omega), hoff] at ha
    omega

theorem set_set (m : Machine R k) (r : R) (v v' : Word k) :
    (m.set r v).set r v' = m.set r v' := by
  rw [set, set, set, Function.update_idem]

theorem push_set (h : r ≠ sp) (m : Machine R k) (v v' : Word k) :
    (m.set r v).push sp v' = (m.push sp v').set r v := by
  simp only [push, set, Function.update_of_ne h.symm, Function.update_comm h]

/-- A word on the stack, where the first one is at the stack pointer. -/
def word (sp : R) (m : Machine R k) (i : Nat) : Word k :=
  m.mem.load (m.regs sp + BitVec.ofNat _ (k * i))

theorem word_pushAll (hle : k * vals.length ≤ 2 ^ (8 * k)) (h : vals.reverse[i]? = some v) :
    (m.pushAll sp vals).word sp i = v := by
  have hwords := pushAll_words sp (n := 0) hle m
  refine Bytes.load_of_words (n := vals.length + 0) ?_
  rw [hwords, Bytes.words, List.append_nil, h]

theorem popAll_mem (m : Machine R k) (rs : List R) : (m.popAll sp rs).mem = m.mem := by
  induction rs generalizing m with
  | nil => rfl
  | cons r rs ih => rw [popAll, List.foldl_cons, ← popAll, ih, popOther_mem]

end Machine

end Tupai.Lib
