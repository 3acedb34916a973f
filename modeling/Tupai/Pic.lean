import Mathlib.Data.BitVec
import Tupai.Basic
import Tupai.Lib.Transition

namespace Tupai
open Lib
set_option autoImplicit true

def PORT_PIC1_CMD : Nat := 0x20

def PORT_PIC2_CMD : Nat := 0xA0

def PORT_PIC1_DATA : Nat := PORT_PIC1_CMD + 1

def PORT_PIC2_DATA : Nat := PORT_PIC2_CMD + 1

def ICW1_ICW4 : Byte := 0x01

def ICW1_INIT : Byte := 0x10

def ICW4_8086 : Byte := 0x01

def OCW3_READ_IRR : Byte := 0x0A

def OCW3_READ_ISR : Byte := 0x0B

def PIC_EOI : Byte := 0x20

def PIC_REMAP_OFFSET : Nat := 32

def setBit (b : Byte) (i : Nat) : Byte := b ||| (1#8 <<< i)

def clearBit (b : Byte) (i : Nat) : Byte := b &&& ~~~(1#8 <<< i)

/-- The word that an 8259 takes next at its data port. -/
inductive PicWord where
  | icw2 | icw3 | icw4 | ocw1
deriving DecidableEq

/-- An 8259: how it was initiated, and its registers for masked, requested and serviced lines. -/
structure Pic where
  next : PicWord
  icw1 : Byte
  base : Byte
  wiring : Byte
  mode : Byte
  imr : Byte
  irr : Byte
  isr : Byte
  readIsr : Bool
deriving DecidableEq

/-- Line 0 is the most urgent one. -/
def highest (b : Byte) : Option Nat := (List.range 8).find? fun i => b.getLsbD i

namespace Pic

/-- A byte at the command port. Of the OCW2 commands there is only the non-specific EOI. -/
def command (p : Pic) (v : Byte) : Pic :=
  if v.getLsbD 4 then
    { p with next := .icw2, icw1 := v, imr := 0, irr := 0, isr := 0, readIsr := false }
  else if v.getLsbD 3 then
    if v.getLsbD 1 then { p with readIsr := v.getLsbD 0 } else p
  else if v = PIC_EOI then
    match highest p.isr with
    | some i => { p with isr := clearBit p.isr i }
    | none => p
  else p

/-- A byte at the data port. -/
def data (p : Pic) (v : Byte) : Pic :=
  let last : PicWord := if p.icw1.getLsbD 0 then .icw4 else .ocw1
  match p.next with
  | .icw2 => { p with base := v &&& 0xF8, next := if p.icw1.getLsbD 1 then last else .icw3 }
  | .icw3 => { p with wiring := v, next := last }
  | .icw4 => { p with mode := v, next := .ocw1 }
  | .ocw1 => { p with imr := v }

/-- The line that is passed on: requested, not masked, and more urgent than all that is in
service. -/
def request (p : Pic) (lines : Byte) : Option Nat :=
  (List.range 8).find? fun i =>
    lines.getLsbD i && !p.imr.getLsbD i && (List.range (i + 1)).all fun j => !p.isr.getLsbD j

def inService (p : Pic) (i : Nat) : Pic :=
  { p with irr := clearBit p.irr i, isr := setBit p.isr i }

end Pic

/-- The two 8259 of a PC. The second one is connected to line 2 of the first one. -/
structure Pics where
  pic1 : Pic
  pic2 : Pic
deriving DecidableEq

namespace Pics

def outb (s : Pics) (port : Nat) (value : Byte) : Pics :=
  if port = PORT_PIC1_CMD then { s with pic1 := s.pic1.command value }
  else if port = PORT_PIC2_CMD then { s with pic2 := s.pic2.command value }
  else if port = PORT_PIC1_DATA then { s with pic1 := s.pic1.data value }
  else if port = PORT_PIC2_DATA then { s with pic2 := s.pic2.data value }
  else s

def inb (s : Pics) (port : Nat) : Byte :=
  if port = PORT_PIC1_CMD then if s.pic1.readIsr then s.pic1.isr else s.pic1.irr
  else if port = PORT_PIC2_CMD then if s.pic2.readIsr then s.pic2.isr else s.pic2.irr
  else if port = PORT_PIC1_DATA then s.pic1.imr
  else if port = PORT_PIC2_DATA then s.pic2.imr
  else 0xFF

def picInit (s : Pics) : Pics :=
  let offset : Byte := BitVec.ofNat 8 PIC_REMAP_OFFSET
  let s := s.outb PORT_PIC1_CMD (ICW1_INIT ||| ICW1_ICW4)
  let s := s.outb PORT_PIC2_CMD (ICW1_INIT ||| ICW1_ICW4)
  let s := s.outb PORT_PIC1_DATA offset
  let s := s.outb PORT_PIC2_DATA (offset + 0x8)
  let s := s.outb PORT_PIC1_DATA 0x4
  let s := s.outb PORT_PIC2_DATA 0x2
  let s := s.outb PORT_PIC1_DATA ICW4_8086
  let s := s.outb PORT_PIC2_DATA ICW4_8086
  let s := s.outb PORT_PIC1_DATA 0xFF
  s.outb PORT_PIC2_DATA 0xFF

def picGetIrqReg (s : Pics) (ocw3 : Byte) : BitVec 16 × Pics :=
  let s := s.outb PORT_PIC1_CMD ocw3
  let s := s.outb PORT_PIC2_CMD ocw3
  ((s.inb PORT_PIC2_CMD).setWidth 16 <<< 8 ||| (s.inb PORT_PIC1_CMD).setWidth 16, s)

def picGetIrr (s : Pics) : BitVec 16 × Pics := s.picGetIrqReg OCW3_READ_IRR

def picGetIsr (s : Pics) : BitVec 16 × Pics := s.picGetIrqReg OCW3_READ_ISR

def picAck (s : Pics) (irq : Nat) : Pics :=
  if 16 ≤ irq then s
  else
    let s := if 8 ≤ irq then s.outb PORT_PIC2_CMD PIC_EOI else s
    s.outb PORT_PIC1_CMD PIC_EOI

def picMask (s : Pics) (irq : Nat) (enable : Bool) : Pics :=
  let mask (port irq : Nat) : Pics :=
    let value := s.inb port
    s.outb port (if enable then clearBit value irq else setBit value irq)
  if irq < 8 then mask PORT_PIC1_DATA irq
  else if irq < 16 then mask PORT_PIC2_DATA (irq - 8)
  else s

/-- A device pulls up its line. -/
def raise (s : Pics) (irq : Nat) : Pics :=
  if irq < 8 then { s with pic1 := { s.pic1 with irr := setBit s.pic1.irr irq } }
  else { s with pic2 := { s.pic2 with irr := setBit s.pic2.irr (irq - 8) } }

/-- The lines of the first PIC, where the second one pulls up line 2. -/
def lines (s : Pics) : Byte :=
  if (s.pic2.request s.pic2.irr).isSome then setBit s.pic1.irr 2 else clearBit s.pic1.irr 2

/-- The CPU acknowledges an interrupt, and is told the vector. -/
def inta (s : Pics) : Option (Nat × Pics) :=
  match s.pic1.request s.lines with
  | none => none
  | some i =>
    if s.pic1.wiring.getLsbD i then
      if s.pic2.wiring.toNat % 8 = i then
        (s.pic2.request s.pic2.irr).map fun j =>
          (s.pic2.base.toNat + j, ⟨s.pic1.inService i, s.pic2.inService j⟩)
      else none
    else some (s.pic1.base.toNat + i, { s with pic1 := s.pic1.inService i })

def pending (s : Pics) (irq : Nat) : Bool :=
  if irq < 8 then irq != 2 && s.pic1.irr.getLsbD irq else s.pic2.irr.getLsbD (irq - 8)

/-- The interrupts of the second PIC also need line 2 of the first one. -/
def enabled (s : Pics) (irq : Nat) : Bool :=
  if irq < 8 then !s.pic1.imr.getLsbD irq
  else !s.pic2.imr.getLsbD (irq - 8) && !s.pic1.imr.getLsbD 2

end Pics

/-- The order of the interrupts, the most urgent one first: 0, 1, 8 to 15, 3 to 7. -/
def urgency (irq : Nat) : Nat := if irq < 2 then irq else if irq < 8 then irq + 7 else irq - 6

/-- The PICs, and the interrupt whose handler is running. -/
structure PicRun where
  pics : Pics
  running : Option Nat

/-- Handlers run with interrupts disabled. Each of them acknowledges its interrupt, other than the
one for spurious interrupts, which is that of interrupt 7. -/
inductive PicStep : PicRun → PicRun → Prop where
  | raise (r : PicRun) (irq : Nat) : irq < 16 → irq ≠ 2 → PicStep r ⟨r.pics.raise irq, r.running⟩
  | mask (r : PicRun) (irq : Nat) (enable : Bool) : PicStep r ⟨r.pics.picMask irq enable, r.running⟩
  | take (r : PicRun) : r.running = none → r.pics.inta = some (v, pics) →
      PicStep r ⟨pics, some (v - PIC_REMAP_OFFSET)⟩
  | ret (r : PicRun) (irq : Nat) : r.running = some irq →
      PicStep r ⟨if irq = 7 then r.pics else r.pics.picAck irq, none⟩

/-- Between two handlers, what is requested and enabled is served in the order of urgency. Only
interrupt 7 may have to wait forever. -/
structure PicRun.Serves (r : PicRun) : Prop where
  served : ∀ i < 16, i ≠ 7 → r.pics.pending i = true → r.pics.enabled i = true →
    ∃ j s, r.pics.inta = some (PIC_REMAP_OFFSET + j, s) ∧ urgency j ≤ urgency i
  taken : ∀ v s, r.pics.inta = some (v, s) → ∃ i < 16, v = PIC_REMAP_OFFSET + i ∧
    r.pics.pending i = true ∧ r.pics.enabled i = true ∧
    (∀ k < 16, r.pics.pending k = true → r.pics.enabled k = true → urgency i ≤ urgency k) ∧
    ∀ k < 16, s.pending k = (r.pics.pending k && !decide (k = i))
  isr : ∀ i < 16, i ≠ 7 → r.pics.picGetIsr.1.getLsbD i = false

theorem getLsbD_shiftOne (hi : i < 8) (j : Nat) : (1#8 <<< i).getLsbD j = decide (j = i) := by
  by_cases hj : j < 8
  · have key : ∀ i j : Fin 8, (1#8 <<< i.val).getLsbD j.val = decide (j.val = i.val) := by decide
    exact key ⟨i, hi⟩ ⟨j, hj⟩
  · rw [BitVec.getLsbD_of_ge _ j (by omega)]
    exact (decide_eq_false (by omega)).symm

theorem getLsbD_setBit (b : Byte) (hi : i < 8) (j : Nat) :
    (setBit b i).getLsbD j = (b.getLsbD j || decide (j = i)) := by
  rw [setBit, BitVec.getLsbD_or, getLsbD_shiftOne hi]

theorem getLsbD_clearBit (b : Byte) (hi : i < 8) (j : Nat) :
    (clearBit b i).getLsbD j = (b.getLsbD j && !decide (j = i)) := by
  rw [clearBit, BitVec.getLsbD_and, BitVec.getLsbD_not, getLsbD_shiftOne hi]
  by_cases hj : j < 8
  · simp [hj]
  · simp [BitVec.getLsbD_of_ge b j (by omega)]

theorem find_range_iff {p : Nat → Bool} : (List.range 8).find? p = some i ↔
    i < 8 ∧ p i = true ∧ ∀ j < i, p j = false := by
  rw [List.find?_range_eq_some]
  simp
  tauto

theorem find_range_none {p : Nat → Bool} :
    (List.range 8).find? p = none ↔ ∀ i < 8, p i = false := by
  rw [List.find?_eq_none]
  simp

theorem highest_iff : highest b = some i ↔
    i < 8 ∧ b.getLsbD i = true ∧ ∀ j < i, b.getLsbD j = false := find_range_iff

namespace Pic

variable {p : Pic} {lines : Byte}

theorem request_iff : p.request lines = some i ↔ i < 8 ∧ lines.getLsbD i = true ∧
    p.imr.getLsbD i = false ∧ (∀ j ≤ i, p.isr.getLsbD j = false) ∧
    ∀ j < i, lines.getLsbD j = true → p.imr.getLsbD j = true := by
  rw [request, find_range_iff]
  simp only [Bool.and_eq_true, Bool.not_eq_true', List.all_eq_true, List.mem_range, Nat.lt_succ_iff,
    Bool.and_eq_false_iff, Bool.not_eq_false']
  constructor
  · rintro ⟨hi, ⟨⟨hline, hmask⟩, hserved⟩, hfirst⟩
    refine ⟨hi, hline, hmask, hserved, fun j hj hup => ?_⟩
    rcases hfirst j hj with (hdown | hmasked) | hall
    · rw [hup] at hdown
      cases hdown
    · exact hmasked
    · rw [List.all_eq_true.2] at hall
      · cases hall
      · intro k hk
        rw [hserved k (by rw [List.mem_range] at hk; omega)]
        rfl
  · rintro ⟨hi, hline, hmask, hserved, hfirst⟩
    refine ⟨hi, ⟨⟨hline, hmask⟩, hserved⟩, fun j hj => .inl ?_⟩
    by_cases hup : lines.getLsbD j = true
    · exact .inr (hfirst j hj hup)
    · exact .inl (Bool.eq_false_of_not_eq_true hup)

/-- A line that nothing in service holds back is passed on, or one that is more urgent. -/
theorem request_of_line (hi : i < 8) (hline : lines.getLsbD i = true)
    (hmask : p.imr.getLsbD i = false) (hserved : ∀ j ≤ i, p.isr.getLsbD j = false) :
    ∃ j ≤ i, p.request lines = some j := by
  cases hreq : p.request lines with
  | none =>
    have hnone := find_range_none.1 hreq i hi
    rw [hline, hmask, List.all_eq_true.2] at hnone
    · cases hnone
    · intro j hj
      rw [hserved j (by rw [List.mem_range] at hj; omega)]
      rfl
  | some j =>
    refine ⟨j, Nat.le_of_not_lt fun hlt => ?_, rfl⟩
    have hmasked := (request_iff.1 hreq).2.2.2.2 i hlt hline
    rw [hmask] at hmasked
    cases hmasked

/-- The initiation, and all lines masked then. -/
theorem initiate (p : Pic) (base wiring : Byte) :
    ((((p.command (ICW1_INIT ||| ICW1_ICW4)).data base).data wiring).data ICW4_8086).data 0xFF =
      ⟨.ocw1, ICW1_INIT ||| ICW1_ICW4, base &&& 0xF8, wiring, ICW4_8086, 0xFF, 0, 0, false⟩ := by
  have hneed : (ICW1_INIT ||| ICW1_ICW4).getLsbD 0 = true := by decide
  have hcascade : (ICW1_INIT ||| ICW1_ICW4).getLsbD 1 = false := by decide
  rw [command, if_pos (by decide)]
  simp only [data, hneed, hcascade]
  rfl

theorem data_ocw1 (h : p.next = .ocw1) (v : Byte) : p.data v = { p with imr := v } := by
  rw [data]
  split
  · next h2 => rw [h] at h2; cases h2
  · next h3 => rw [h] at h3; cases h3
  · next h4 => rw [h] at h4; cases h4
  · rfl

/-- The EOI ends the most urgent one of those in service. -/
theorem command_eoi (hi : p.isr.getLsbD i = true) (hlow : ∀ j < i, p.isr.getLsbD j = false) :
    p.command PIC_EOI = { p with isr := clearBit p.isr i } := by
  have hhigh : highest p.isr = some i := highest_iff.2 ⟨BitVec.lt_of_getLsbD hi, hi, hlow⟩
  rw [command, if_neg (by decide), if_neg (by decide), if_pos rfl, hhigh]

end Pic

namespace Pics

/-- Both PICs are as `pic_init` leaves them, up to the registers. -/
structure Initiated (s : Pics) : Prop where
  next1 : s.pic1.next = .ocw1
  next2 : s.pic2.next = .ocw1
  base1 : s.pic1.base = 32#8
  base2 : s.pic2.base = 40#8
  wiring1 : s.pic1.wiring = 4#8
  wiring2 : s.pic2.wiring = 2#8

@[simp] theorem outb_command1 (s : Pics) (v : Byte) :
    s.outb PORT_PIC1_CMD v = { s with pic1 := s.pic1.command v } := rfl

@[simp] theorem outb_command2 (s : Pics) (v : Byte) :
    s.outb PORT_PIC2_CMD v = { s with pic2 := s.pic2.command v } := rfl

@[simp] theorem outb_data1 (s : Pics) (v : Byte) :
    s.outb PORT_PIC1_DATA v = { s with pic1 := s.pic1.data v } := rfl

@[simp] theorem outb_data2 (s : Pics) (v : Byte) :
    s.outb PORT_PIC2_DATA v = { s with pic2 := s.pic2.data v } := rfl

/-- Whatever state they were in. -/
theorem picInit_eq (s : Pics) : s.picInit =
    ⟨⟨.ocw1, ICW1_INIT ||| ICW1_ICW4, 32#8, 0x4, ICW4_8086, 0xFF, 0, 0, false⟩,
      ⟨.ocw1, ICW1_INIT ||| ICW1_ICW4, 40#8, 0x2, ICW4_8086, 0xFF, 0, 0, false⟩⟩ := by
  rw [picInit]
  simp only [outb_command1, outb_command2, outb_data1, outb_data2, Pic.initiate]
  rfl

theorem picInit_initiated (s : Pics) : s.picInit.Initiated := by
  rw [picInit_eq]
  exact ⟨rfl, rfl, rfl, rfl, rfl, rfl⟩

variable {s s' : Pics}

theorem picAck_low (h : irq < 8) (s : Pics) :
    s.picAck irq = ⟨s.pic1.command PIC_EOI, s.pic2⟩ := by
  rw [picAck, if_neg (by omega), if_neg (by omega)]
  rfl

theorem picAck_high (h : 8 ≤ irq) (hlt : irq < 16) (s : Pics) :
    s.picAck irq = ⟨s.pic1.command PIC_EOI, s.pic2.command PIC_EOI⟩ := by
  rw [picAck, if_neg (by omega), if_pos h]
  rfl

/-- Masking changes one bit of one mask. -/
theorem picMask_low (hs : s.Initiated) (h : irq < 8) (enable : Bool) :
    s.picMask irq enable = { s with pic1 := { s.pic1 with
      imr := if enable then clearBit s.pic1.imr irq else setBit s.pic1.imr irq } } := by
  rw [picMask, if_pos h]
  show Pics.mk (s.pic1.data _) s.pic2 = _
  rw [Pic.data_ocw1 hs.next1]
  rfl

theorem picMask_high (hs : s.Initiated) (h : 8 ≤ irq) (hlt : irq < 16) (enable : Bool) :
    s.picMask irq enable = { s with pic2 := { s.pic2 with
      imr := if enable then clearBit s.pic2.imr (irq - 8) else setBit s.pic2.imr (irq - 8) } } := by
  rw [picMask, if_neg (by omega), if_pos hlt]
  show Pics.mk s.pic1 (s.pic2.data _) = _
  rw [Pic.data_ocw1 hs.next2]
  rfl

theorem picMask_invalid (h : 16 ≤ irq) (s : Pics) (enable : Bool) : s.picMask irq enable = s := by
  rw [picMask, if_neg (by omega), if_neg (by omega)]

theorem lines_two (s : Pics) :
    s.lines.getLsbD 2 = (s.pic2.request s.pic2.irr).isSome := by
  rw [lines]
  split_ifs with h
  · rw [getLsbD_setBit _ (by decide), h, decide_eq_true rfl, Bool.or_true]
  · rw [getLsbD_clearBit _ (by decide), decide_eq_true rfl, Bool.not_true, Bool.and_false]
    exact (Bool.eq_false_of_not_eq_true h).symm

theorem lines_of_ne (s : Pics) (h : i ≠ 2) : s.lines.getLsbD i = s.pic1.irr.getLsbD i := by
  rw [lines]
  split_ifs
  · rw [getLsbD_setBit _ (by decide), decide_eq_false h, Bool.or_false]
  · rw [getLsbD_clearBit _ (by decide), decide_eq_false h, Bool.not_false, Bool.and_true]

theorem getLsbD_picGetIsr (s : Pics) (hi : i < 16) : s.picGetIsr.1.getLsbD i =
    if i < 8 then s.pic1.isr.getLsbD i else s.pic2.isr.getLsbD (i - 8) := by
  have hread : s.picGetIsr.1 = s.pic2.isr.setWidth 16 <<< 8 ||| s.pic1.isr.setWidth 16 := rfl
  rw [hread, BitVec.getLsbD_or, BitVec.getLsbD_shiftLeft, BitVec.getLsbD_setWidth,
    BitVec.getLsbD_setWidth, decide_eq_true hi, Bool.true_and, Bool.true_and]
  split_ifs with h8
  · rw [decide_eq_true h8, Bool.not_true, Bool.false_and, Bool.false_or]
  · rw [decide_eq_false h8, BitVec.getLsbD_of_ge _ i (by omega), decide_eq_true (by omega),
      Bool.not_false, Bool.true_and, Bool.true_and, Bool.or_false]

/-- There is a slave on line 2 only. -/
theorem Initiated.wired (hs : s.Initiated) (i : Nat) :
    s.pic1.wiring.getLsbD i = decide (i = 2) := by
  rw [hs.wiring1]
  exact getLsbD_shiftOne (i := 2) (by decide) i

theorem inta_low (hs : s.Initiated) (hreq : s.pic1.request s.lines = some i) (h2 : i ≠ 2) :
    s.inta = some (PIC_REMAP_OFFSET + i, { s with pic1 := s.pic1.inService i }) := by
  rw [inta, hreq]
  dsimp only
  rw [hs.wired, decide_eq_false h2, if_neg Bool.false_ne_true, hs.base1]
  rfl

theorem inta_high (hs : s.Initiated) (hreq : s.pic1.request s.lines = some 2)
    (hslave : s.pic2.request s.pic2.irr = some j) :
    s.inta = some (PIC_REMAP_OFFSET + (8 + j), ⟨s.pic1.inService 2, s.pic2.inService j⟩) := by
  rw [inta, hreq]
  dsimp only
  rw [hs.wired, decide_eq_true rfl, if_pos rfl, hs.wiring2, if_pos (by decide), hslave, hs.base2,
    ← Nat.add_assoc]
  rfl

/-- An interrupt is one of the first PIC, or one of the second PIC on line 2. -/
theorem inta_cases (hs : s.Initiated) (h : s.inta = some (v, s')) :
    (∃ i < 8, i ≠ 2 ∧ s.pic1.request s.lines = some i ∧ v = PIC_REMAP_OFFSET + i ∧
      s' = { s with pic1 := s.pic1.inService i }) ∨
    ∃ j < 8, s.pic1.request s.lines = some 2 ∧ s.pic2.request s.pic2.irr = some j ∧
      v = PIC_REMAP_OFFSET + (8 + j) ∧ s' = ⟨s.pic1.inService 2, s.pic2.inService j⟩ := by
  cases hreq : s.pic1.request s.lines with
  | none =>
    rw [inta, hreq] at h
    cases h
  | some i =>
    obtain ⟨hi, hline, -⟩ := Pic.request_iff.1 hreq
    by_cases h2 : i = 2
    · subst h2
      rw [lines_two, Option.isSome_iff_exists] at hline
      obtain ⟨j, hj⟩ := hline
      rw [inta_high hs hreq hj] at h
      cases h
      exact .inr ⟨j, (Pic.request_iff.1 hj).1, rfl, hj, rfl, rfl⟩
    · rw [inta_low hs hreq h2] at h
      cases h
      exact .inl ⟨i, hi, h2, rfl, rfl, rfl⟩

end Pics

/-- What is in service is what is handled right now, on line 2 also for the second PIC. Interrupt 7
may stay in service. -/
structure PicRun.Sound (r : PicRun) : Prop where
  initiated : r.pics.Initiated
  running : ∀ i, r.running = some i → i < 16 ∧ i ≠ 2
  served1 : ∀ j, j ≠ 7 → (r.pics.pic1.isr.getLsbD j = true ↔
    (j < 8 ∧ r.running = some j) ∨ j = 2 ∧ ∃ i, r.running = some (8 + i))
  served2 : ∀ j, r.pics.pic2.isr.getLsbD j = true ↔ j < 8 ∧ r.running = some (8 + j)

namespace PicRun

variable {r r' : PicRun}

theorem sound_idle {s : Pics} (hs : s.Initiated)
    (h1 : ∀ j, j ≠ 7 → s.pic1.isr.getLsbD j = false) (h2 : ∀ j, s.pic2.isr.getLsbD j = false) :
    Sound ⟨s, none⟩ where
  initiated := hs
  running i hi := by cases hi
  served1 j hj := by
    rw [h1 j hj]
    simp
  served2 j := by
    rw [h2]
    simp

theorem sound_init (s : Pics) : Sound ⟨s.picInit, none⟩ := by
  refine sound_idle s.picInit_initiated (fun j _ => ?_) fun j => ?_
  · rw [Pics.picInit_eq]
    exact BitVec.getLsbD_zero
  · rw [Pics.picInit_eq]
    exact BitVec.getLsbD_zero

namespace Sound

variable (h : r.Sound)

include h

theorem idle2 (hidle : r.running = none) (j : Nat) : r.pics.pic2.isr.getLsbD j = false := by
  refine Bool.eq_false_of_not_eq_true fun hj => ?_
  rw [h.served2, hidle] at hj
  cases hj.2

theorem idle1 (hidle : r.running = none) (hj : j ≠ 7) : r.pics.pic1.isr.getLsbD j = false := by
  refine Bool.eq_false_of_not_eq_true fun hset => ?_
  rw [h.served1 j hj, hidle] at hset
  rcases hset with ⟨_, he⟩ | ⟨_, i, he⟩
  · cases he
  · cases he

theorem raise (irq : Nat) : Sound ⟨r.pics.raise irq, r.running⟩ := by
  obtain ⟨⟨h1, h2, h3, h4, h5, h6⟩, hrunning, hserved1, hserved2⟩ := h
  rw [Pics.raise]
  split_ifs
  · exact ⟨⟨h1, h2, h3, h4, h5, h6⟩, hrunning, hserved1, hserved2⟩
  · exact ⟨⟨h1, h2, h3, h4, h5, h6⟩, hrunning, hserved1, hserved2⟩

theorem mask (irq : Nat) (enable : Bool) : Sound ⟨r.pics.picMask irq enable, r.running⟩ := by
  obtain ⟨hinit, hrunning, hserved1, hserved2⟩ := h
  have hinit' := hinit
  obtain ⟨h1, h2, h3, h4, h5, h6⟩ := hinit'
  by_cases hlow : irq < 8
  · rw [Pics.picMask_low hinit hlow]
    exact ⟨⟨h1, h2, h3, h4, h5, h6⟩, hrunning, hserved1, hserved2⟩
  · by_cases hhigh : irq < 16
    · rw [Pics.picMask_high hinit (by omega) hhigh]
      exact ⟨⟨h1, h2, h3, h4, h5, h6⟩, hrunning, hserved1, hserved2⟩
    · rw [Pics.picMask_invalid (by omega)]
      exact ⟨hinit, hrunning, hserved1, hserved2⟩

theorem take (hidle : r.running = none) (ht : r.pics.inta = some (v, s)) :
    Sound ⟨s, some (v - PIC_REMAP_OFFSET)⟩ := by
  obtain ⟨h1, h2, h3, h4, h5, h6⟩ := h.initiated
  rcases Pics.inta_cases h.initiated ht with ⟨i, hi, hne, -, rfl, rfl⟩ | ⟨k, hk, -, -, rfl, rfl⟩
  · rw [Nat.add_sub_cancel_left]
    refine ⟨⟨h1, h2, h3, h4, h5, h6⟩, fun i' he => ?_, fun j hj => ?_, fun j => ?_⟩
    · cases he
      exact ⟨by omega, hne⟩
    · show (setBit r.pics.pic1.isr i).getLsbD j = true ↔ _
      rw [getLsbD_setBit _ hi, h.idle1 hidle hj, Bool.false_or, decide_eq_true_iff, Option.some_inj]
      simp only [Option.some_inj]
      omega
    · show r.pics.pic2.isr.getLsbD j = true ↔ _
      rw [h.idle2 hidle, Option.some_inj]
      simp only [Bool.false_eq_true, false_iff]
      omega
  · rw [Nat.add_sub_cancel_left]
    refine ⟨⟨h1, h2, h3, h4, h5, h6⟩, fun i' he => ?_, fun j hj => ?_, fun j => ?_⟩
    · cases he
      exact ⟨by omega, by omega⟩
    · show (setBit r.pics.pic1.isr 2).getLsbD j = true ↔ _
      rw [getLsbD_setBit _ (by decide), h.idle1 hidle hj, Bool.false_or, decide_eq_true_iff]
      constructor
      · rintro rfl
        exact .inr ⟨rfl, k, rfl⟩
      · rintro (⟨hlt, he⟩ | ⟨he, -⟩)
        · rw [Option.some_inj] at he
          omega
        · exact he
    · show (setBit r.pics.pic2.isr k).getLsbD j = true ↔ _
      rw [getLsbD_setBit _ hk, h.idle2 hidle, Bool.false_or, decide_eq_true_iff, Option.some_inj]
      omega

/-- The EOIs end what is handled, and nothing else. -/
theorem ret (hi : r.running = some i) :
    Sound ⟨if i = 7 then r.pics else r.pics.picAck i, none⟩ := by
  obtain ⟨h1, h2, h3, h4, h5, h6⟩ := h.initiated
  obtain ⟨hlt, hne⟩ := h.running i hi
  have hserved1 := h.served1
  have hserved2 := h.served2
  rw [hi] at hserved1 hserved2
  simp only [Option.some_inj] at hserved1 hserved2
  -- what is not handled is not in service
  have hfree1 : ∀ j, j ≠ 7 → (i < 8 → j ≠ i) → (8 ≤ i → j ≠ 2) →
      r.pics.pic1.isr.getLsbD j = false := by
    intro j hj hji h2
    refine Bool.eq_false_of_not_eq_true fun hset => ?_
    rcases (hserved1 j hj).1 hset with ⟨hj8, he⟩ | ⟨he, k, hk⟩
    · omega
    · omega
  have hfree2 : ∀ j, i ≠ 8 + j → r.pics.pic2.isr.getLsbD j = false := by
    intro j hj
    exact Bool.eq_false_of_not_eq_true fun hset => hj ((hserved2 j).1 hset).2
  by_cases h7 : i = 7
  · rw [if_pos h7]
    exact sound_idle h.initiated (fun j hj => hfree1 j hj (by omega) (by omega))
      fun j => hfree2 j (by omega)
  · rw [if_neg h7]
    rcases Nat.lt_or_ge i 8 with hlow | hhigh
    · have hset : r.pics.pic1.isr.getLsbD i = true := (hserved1 i h7).2 (.inl ⟨hlow, rfl⟩)
      rw [Pics.picAck_low hlow, Pic.command_eoi hset fun j hj => hfree1 j (by omega) (by omega)
        (by omega)]
      refine sound_idle ⟨h1, h2, h3, h4, h5, h6⟩ (fun j hj => ?_) fun j => hfree2 j (by omega)
      rw [getLsbD_clearBit _ hlow]
      by_cases hji : j = i
      · rw [decide_eq_true hji, Bool.not_true, Bool.and_false]
      · rw [hfree1 j hj (fun _ => hji) (by omega), Bool.false_and]
    · have hset1 : r.pics.pic1.isr.getLsbD 2 = true :=
        (hserved1 2 (by decide)).2 (.inr ⟨rfl, i - 8, by omega⟩)
      have hset2 : r.pics.pic2.isr.getLsbD (i - 8) = true :=
        (hserved2 (i - 8)).2 ⟨by omega, by omega⟩
      rw [Pics.picAck_high hhigh hlt, Pic.command_eoi hset1 fun j hj => hfree1 j (by omega)
        (by omega) (by omega), Pic.command_eoi hset2 fun j hj => hfree2 j (by omega)]
      refine sound_idle ⟨h1, h2, h3, h4, h5, h6⟩ (fun j hj => ?_) fun j => ?_
      · rw [getLsbD_clearBit _ (by decide)]
        by_cases hj2 : j = 2
        · rw [decide_eq_true hj2, Bool.not_true, Bool.and_false]
        · rw [hfree1 j hj (by omega) fun _ => hj2, Bool.false_and]
      · rw [getLsbD_clearBit _ (by omega)]
        by_cases hji : j = i - 8
        · rw [decide_eq_true hji, Bool.not_true, Bool.and_false]
        · rw [hfree2 j (by omega), Bool.false_and]

end Sound

theorem sound_of_reachable (hr : Reachable (fun r => ∃ s : Pics, r = ⟨s.picInit, none⟩) PicStep r) :
    r.Sound := by
  apply hr.invariant
  · rintro _ ⟨s, rfl⟩
    exact sound_init s
  · intro r r' h hs
    cases hs with
    | raise _ irq _ _ => exact h.raise irq
    | mask _ irq enable => exact h.mask irq enable
    | take _ hidle ht => exact h.take hidle ht
    | ret _ irq hi => exact h.ret hi

namespace Sound

variable (h : r.Sound) (hidle : r.running = none)

include h hidle

theorem served (hi : i < 16) (h7 : i ≠ 7) (hpending : r.pics.pending i = true)
    (henabled : r.pics.enabled i = true) :
    ∃ j s, r.pics.inta = some (PIC_REMAP_OFFSET + j, s) ∧ urgency j ≤ urgency i := by
  rw [Pics.pending] at hpending
  rw [Pics.enabled] at henabled
  rcases Nat.lt_or_ge i 8 with hlow | hhigh
  · rw [if_pos hlow, Bool.and_eq_true, bne_iff_ne] at hpending
    rw [if_pos hlow, Bool.not_eq_true'] at henabled
    obtain ⟨hne, hup⟩ := hpending
    rw [← Pics.lines_of_ne _ hne] at hup
    obtain ⟨j, hj, hreq⟩ := Pic.request_of_line hlow hup henabled
      fun k hk => h.idle1 hidle (by omega)
    by_cases h2 : j = 2
    · subst h2
      have hline := (Pic.request_iff.1 hreq).2.1
      rw [Pics.lines_two, Option.isSome_iff_exists] at hline
      obtain ⟨k, hk⟩ := hline
      have hk8 := (Pic.request_iff.1 hk).1
      refine ⟨8 + k, _, Pics.inta_high h.initiated hreq hk, ?_⟩
      rw [urgency, urgency, if_neg (by omega), if_neg (by omega), if_neg (by omega), if_pos hlow]
      omega
    · refine ⟨j, _, Pics.inta_low h.initiated hreq h2, ?_⟩
      rw [urgency, urgency]
      split_ifs <;> omega
  · rw [if_neg (by omega)] at hpending
    rw [if_neg (by omega), Bool.and_eq_true, Bool.not_eq_true', Bool.not_eq_true'] at henabled
    obtain ⟨k, hk, hslave⟩ := Pic.request_of_line (by omega) hpending henabled.1
      fun k _ => h.idle2 hidle k
    have hline : r.pics.lines.getLsbD 2 = true := by
      rw [Pics.lines_two, hslave]
      rfl
    obtain ⟨j, hj, hreq⟩ := Pic.request_of_line (by decide) hline henabled.2
      fun k hk => h.idle1 hidle (by omega)
    by_cases h2 : j = 2
    · subst h2
      refine ⟨8 + k, _, Pics.inta_high h.initiated hreq hslave, ?_⟩
      rw [urgency, urgency, if_neg (by omega), if_neg (by omega), if_neg (by omega),
        if_neg (by omega)]
      omega
    · refine ⟨j, _, Pics.inta_low h.initiated hreq h2, ?_⟩
      rw [urgency, urgency, if_pos (by omega), if_neg (by omega), if_neg (by omega)]
      omega

theorem first (ht : r.pics.inta = some (PIC_REMAP_OFFSET + i, s)) (hi : i < 16) (hk : k < 16)
    (hpending : r.pics.pending k = true) (henabled : r.pics.enabled k = true) :
    urgency i ≤ urgency k := by
  by_cases h7 : k = 7
  · subst h7
    show urgency i ≤ 14
    rw [urgency]
    split_ifs <;> omega
  · obtain ⟨j, s', hj, hle⟩ := h.served hidle hk h7 hpending henabled
    rw [ht, Option.some_inj, Prod.mk.injEq] at hj
    rwa [Nat.add_left_cancel hj.1]

theorem taken (ht : r.pics.inta = some (v, s)) : ∃ i < 16, v = PIC_REMAP_OFFSET + i ∧
    r.pics.pending i = true ∧ r.pics.enabled i = true ∧
    (∀ k < 16, r.pics.pending k = true → r.pics.enabled k = true → urgency i ≤ urgency k) ∧
    ∀ k < 16, s.pending k = (r.pics.pending k && !decide (k = i)) := by
  rcases Pics.inta_cases h.initiated ht with
    ⟨i, hi, hne, hreq, rfl, rfl⟩ | ⟨k, hk, hreq, hslave, rfl, rfl⟩
  · obtain ⟨-, hline, hmask, -⟩ := Pic.request_iff.1 hreq
    rw [Pics.lines_of_ne _ hne] at hline
    refine ⟨i, by omega, rfl, ?_, ?_, fun k hk => h.first hidle ht (by omega) hk, fun k hk => ?_⟩
    · rw [Pics.pending, if_pos hi, hline, Bool.and_true, bne_iff_ne]
      exact hne
    · rw [Pics.enabled, if_pos hi, hmask]
      rfl
    · rw [Pics.pending, Pics.pending]
      split_ifs with hk8
      · show (k != 2 && (clearBit r.pics.pic1.irr i).getLsbD k) = _
        rw [getLsbD_clearBit _ hi, Bool.and_assoc]
      · rw [decide_eq_false (by omega), Bool.not_false, Bool.and_true]
  · obtain ⟨-, hline, hmask, -⟩ := Pic.request_iff.1 hslave
    have hmask2 := (Pic.request_iff.1 hreq).2.2.1
    refine ⟨8 + k, by omega, rfl, ?_, ?_, fun k' hk' => h.first hidle ht (by omega) hk',
      fun k' hk' => ?_⟩
    · rw [Pics.pending, if_neg (by omega), Nat.add_sub_cancel_left]
      exact hline
    · rw [Pics.enabled, if_neg (by omega), Nat.add_sub_cancel_left, hmask, hmask2]
      rfl
    · rw [Pics.pending, Pics.pending]
      split_ifs with hk8
      · show (k' != 2 && (clearBit r.pics.pic1.irr 2).getLsbD k') = _
        rw [getLsbD_clearBit _ (by decide), decide_eq_false (by omega : ¬ k' = 8 + k)]
        cases hk2 : k' != 2
        · rfl
        · rw [decide_eq_false (bne_iff_ne.1 hk2), Bool.true_and, Bool.not_false, Bool.and_true,
            Bool.true_and, Bool.and_true]
      · show (clearBit r.pics.pic2.irr k).getLsbD (k' - 8) = _
        have hiff : k' - 8 = k ↔ k' = 8 + k := by omega
        rw [getLsbD_clearBit _ hk, decide_eq_decide.2 hiff]

end Sound

/-- In every run from `pic_init` on, interrupts are served. -/
theorem pics_serve (hr : Reachable (fun r => ∃ s : Pics, r = ⟨s.picInit, none⟩) PicStep r)
    (hidle : r.running = none) : r.Serves where
  served _ hi h7 hpending henabled :=
    (sound_of_reachable hr).served hidle hi h7 hpending henabled
  taken _ _ ht := (sound_of_reachable hr).taken hidle ht
  isr i hi h7 := by
    have h := sound_of_reachable hr
    rw [Pics.getLsbD_picGetIsr _ hi]
    split_ifs
    · exact h.idle1 hidle h7
    · exact h.idle2 hidle _

/-- A PIC before it is initiated. -/
def off : Pic := ⟨.icw2, 0, 0, 0, 0, 0, 0, 0, false⟩

/-- The keyboard and the clock both have a request. -/
def keyAndClock : PicRun :=
  let enabled := (((Pics.picInit ⟨off, off⟩).picMask 1 true).picMask 2 true).picMask 8 true
  ⟨(enabled.raise 8).raise 1, none⟩

theorem keyAndClock_reachable :
    Reachable (fun r => ∃ s : Pics, r = ⟨s.picInit, none⟩) PicStep keyAndClock :=
  .step (.step (.step (.step (.step (.init ⟨_, rfl⟩) (.mask _ 1 true)) (.mask _ 2 true))
    (.mask _ 8 true)) (.raise _ 8 (by decide) (by decide))) (.raise _ 1 (by decide) (by decide))

/-- The key is taken first and acknowledged, and then it is the clock's turn. -/
theorem pics_serve_kbd : ∃ s, keyAndClock.pics.inta = some (PIC_REMAP_OFFSET + 1, s) ∧
    Serves ⟨s.picAck 1, none⟩ ∧ ∃ s', (s.picAck 1).inta = some (PIC_REMAP_OFFSET + 8, s') := by
  have htake : keyAndClock.pics.inta.map Prod.fst = some (PIC_REMAP_OFFSET + 1) := by decide
  have hnext : keyAndClock.pics.inta.bind (fun x => (x.2.picAck 1).inta.map Prod.fst) =
      some (PIC_REMAP_OFFSET + 8) := by decide
  obtain ⟨⟨_, s⟩, hs, rfl⟩ := Option.map_eq_some_iff.1 htake
  rw [hs] at hnext
  obtain ⟨⟨_, s'⟩, hs', rfl⟩ := Option.map_eq_some_iff.1 hnext
  have htaken := keyAndClock_reachable.step (.take _ rfl hs)
  exact ⟨s, hs, pics_serve (htaken.step (.ret _ 1 rfl)) rfl, s', hs'⟩

end PicRun

end Tupai
