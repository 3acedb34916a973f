import Tupai.Lib.LittleEndian
import Tupai.Pic

namespace Tupai
open Lib
set_option autoImplicit true

def IDT_LENGTH : Nat := 256 + PIC_REMAP_OFFSET

def GDT_LENGTH : Nat := 3

def GATE_INT : Nat := 0b1110

def PRESENT : Nat := 0b10000000

/-- What the CPU finds in an entry of the IDT that is present. -/
structure Gate where
  offset : Nat
  selector : Nat
  ist : Nat
  type : Nat
  dpl : Nat
deriving DecidableEq

/-- What the CPU finds in an entry of the GDT. -/
structure Seg where
  base : Nat
  limit : Nat
  access : Nat
  flags : Nat
deriving DecidableEq

/-- The tables of an architecture: how wide addresses are, how large the entries of the IDT, which
fields of one `idt_set_entry` sets, how the CPU reads the address in it, and the flags that
`gdt_init` sets. -/
structure CpuTables where
  width : Nat
  idtDesc : Nat
  idtFields : (address selectorId : Nat) → List Field
  target : Mem → (e : Nat) → Nat
  codeAccessFlags : Nat
  dataAccessFlags : Nat
  granularityFlags : Nat

/-- The granularity flags and the high bits of the size share a byte. -/
def gdtFields (offset size accessFlags granularityFlags : Nat) : List Field :=
  [⟨2, 2, offset % 2 ^ 16⟩, ⟨4, 1, offset / 2 ^ 16 % 2 ^ 8⟩, ⟨7, 1, offset / 2 ^ 24 % 2 ^ 8⟩,
    ⟨0, 2, size % 2 ^ 16⟩,
    ⟨6, 1, (size / 2 ^ 16 % 2 ^ 4) ||| (granularityFlags * 2 ^ 4 % 2 ^ 8)⟩, ⟨5, 1, accessFlags⟩]

def gdtSetEntry (gdt : Nat) (mem : Mem) (n offset size accessFlags granularityFlags : Nat) : Mem :=
  leFields mem (gdt + 8 * n) (gdtFields offset size accessFlags granularityFlags)

/-- The segment that a selector stands for. -/
def segment (gdt : Nat) (mem : Mem) (selector : Nat) : Seg :=
  let e := gdt + selector / 8 * 8
  ⟨leNat mem (e + 2) 2 + 2 ^ 16 * leNat mem (e + 4) 1 + 2 ^ 24 * leNat mem (e + 7) 1,
    leNat mem e 2 + 2 ^ 16 * (leNat mem (e + 6) 1 % 2 ^ 4), leNat mem (e + 5) 1,
    leNat mem (e + 6) 1 / 2 ^ 4⟩

/-- The labels in `exception.s` and `isr.s` that `idt_init` knows. -/
structure IsrLabels where
  isr : Nat → Nat
  isrStub : Nat
  isrSpurious : Nat

/-- A call of `interrupt_bind`, whose number is a `uint8_t`. -/
structure Binding where
  irq : Fin 256
  address : Nat
  hardware : Bool

def Binding.vector (b : Binding) : Nat := (if b.hardware then PIC_REMAP_OFFSET else 0) + b.irq

namespace CpuTables

def idtSetEntry (t : CpuTables) (idt : Nat) (mem : Mem) (irq address selectorId : Nat) : Mem :=
  leFields mem (idt + t.idtDesc * irq) (t.idtFields address selectorId)

/-- The CPU reads the entry of a vector. -/
def gate (t : CpuTables) (idt : Nat) (mem : Mem) (v : Nat) : Option Gate :=
  let e := idt + t.idtDesc * v
  let attr := leNat mem (e + 5) 1
  if attr / 2 ^ 7 % 2 = 0 then none
  else some ⟨t.target mem e, leNat mem (e + 2) 2, leNat mem (e + 4) 1, attr % 2 ^ 4,
    attr / 2 ^ 5 % 2 ^ 2⟩

def gdtInit (t : CpuTables) (gdt : Nat) (mem : Mem) : Mem :=
  let mem := gdtSetEntry gdt mem 0 0 0 0 0
  let mem := gdtSetEntry gdt mem 1 0 0xFFFFF t.codeAccessFlags t.granularityFlags
  gdtSetEntry gdt mem 2 0 0xFFFFF t.dataAccessFlags t.granularityFlags

def idtInit (t : CpuTables) (l : IsrLabels) (idt : Nat) (mem : Mem) : Mem :=
  let mem := (List.range 19).foldl (fun mem i => t.idtSetEntry idt mem i (l.isr i) 1) mem
  let mem := (List.range' PIC_REMAP_OFFSET (IDT_LENGTH - PIC_REMAP_OFFSET)).foldl
    (fun mem i => t.idtSetEntry idt mem i l.isrStub 1) mem
  t.idtSetEntry idt mem (PIC_REMAP_OFFSET + 7) l.isrSpurious 1

/-- The bytes of `gdt_ptr` and `idt_ptr`. -/
def ptrBytes (t : CpuTables) : Nat := 2 + t.width / 8

/-- The addresses and lengths of the tables and of the pointers to them. -/
def ranges (t : CpuTables) (gdt gdtPtr idt idtPtr : Nat) : List (Nat × Nat) :=
  [(gdt, 8 * GDT_LENGTH), (gdtPtr, t.ptrBytes), (idt, t.idtDesc * IDT_LENGTH), (idtPtr, t.ptrBytes)]

end CpuTables

/-- Where the linker puts the tables, and the operands of `lgdt` and `lidt`. -/
structure TableSymbols (t : CpuTables) where
  gdt : Nat
  gdtPtr : Nat
  idt : Nat
  idtPtr : Nat
  gdt_lt : gdt < 2 ^ t.width
  idt_lt : idt < 2 ^ t.width
  apart : (t.ranges gdt gdtPtr idt idtPtr).Pairwise fun x y =>
    x.1 + x.2 ≤ y.1 ∨ y.1 + y.2 ≤ x.1

/-- What `lgdt` and `lidt` load: the last offset in a table, and its address. -/
structure TablePtr where
  size : Nat
  offset : Nat

/-- The memory, and the two registers of the CPU. -/
structure TableCpu where
  mem : Mem
  gdtr : TablePtr
  idtr : TablePtr

namespace CpuTables

def setPtr (t : CpuTables) (mem : Mem) (p : Nat) (ptr : TablePtr) : Mem :=
  leFields mem p [⟨0, 2, ptr.size⟩, ⟨2, t.width / 8, ptr.offset⟩]

def loadPtr (t : CpuTables) (mem : Mem) (p : Nat) : TablePtr :=
  ⟨leNat mem p 2, leNat mem (p + 2) (t.width / 8)⟩

def gdtInstall (t : CpuTables) (x : TableSymbols t) (s : TableCpu) : TableCpu :=
  let mem := t.setPtr s.mem x.gdtPtr ⟨8 * GDT_LENGTH - 1, x.gdt⟩
  { s with mem := mem, gdtr := t.loadPtr mem x.gdtPtr }

def idtInstall (t : CpuTables) (x : TableSymbols t) (s : TableCpu) : TableCpu :=
  let mem := t.setPtr s.mem x.idtPtr ⟨t.idtDesc * IDT_LENGTH - 1, x.idt⟩
  { s with mem := mem, idtr := t.loadPtr mem x.idtPtr }

def interruptBind (t : CpuTables) (x : TableSymbols t) (s : TableCpu) (b : Binding) : TableCpu :=
  t.idtInstall x { s with mem := t.idtSetEntry x.idt s.mem b.vector b.address 1 }

/-- What `kentry` does with the tables. -/
def kentry (t : CpuTables) (l : IsrLabels) (x : TableSymbols t) (s : TableCpu) : TableCpu :=
  let s := t.gdtInstall x { s with mem := t.gdtInit x.gdt s.mem }
  t.idtInstall x { s with mem := t.idtInit l x.idt s.mem }

/-- Booting, and the calls of `interrupt_bind` that follow. -/
def run (t : CpuTables) (l : IsrLabels) (x : TableSymbols t) (s : TableCpu)
    (bindings : List Binding) : TableCpu :=
  bindings.foldl (t.interruptBind x) (t.kentry l x s)

/-- The CPU looks for the entry of a vector in the table of its register. -/
def gateOf (t : CpuTables) (s : TableCpu) (v : Nat) : Option Gate :=
  if t.idtDesc * v + t.idtDesc ≤ s.idtr.size + 1 then t.gate s.idtr.offset s.mem v else none

end CpuTables

/-- The CPU looks for the segment of a selector in the table of its register. -/
def segmentOf (s : TableCpu) (selector : Nat) : Option Seg :=
  if selector / 8 * 8 + 8 ≤ s.gdtr.size + 1 then some (segment s.gdtr.offset s.mem selector)
  else none

def CODE_ACCESS : Nat := 0b10 ||| 0b1000 ||| 0b10000 ||| PRESENT

def DATA_ACCESS : Nat := 0b10 ||| 0b10000 ||| PRESENT

/-- The handler of a vector is the one that was bound last, or else that of `idt_init`. -/
def handler (l : IsrLabels) (bindings : List Binding) (v : Nat) : Option Nat :=
  match bindings.reverse.find? fun b => b.vector = v with
  | some b => some b.address
  | none =>
    if v < 19 then some (l.isr v)
    else if v < PIC_REMAP_OFFSET then none
    else some (if v = PIC_REMAP_OFFSET + 7 then l.isrSpurious else l.isrStub)

namespace Amd64

def tables : CpuTables where
  width := 64
  idtDesc := 16
  idtFields address selectorId :=
    [⟨0, 2, address % 2 ^ 16⟩, ⟨6, 2, address / 2 ^ 16 % 2 ^ 16⟩, ⟨8, 4, address / 2 ^ 32 % 2 ^ 32⟩,
      ⟨2, 2, selectorId * 8⟩, ⟨12, 4, 0⟩, ⟨5, 1, GATE_INT ||| PRESENT⟩]
  target mem e := leNat mem e 2 + 2 ^ 16 * leNat mem (e + 6) 2 + 2 ^ 32 * leNat mem (e + 8) 4
  codeAccessFlags := CODE_ACCESS ||| 0b100
  dataAccessFlags := DATA_ACCESS
  granularityFlags := 0b1000 ||| 0b0010

end Amd64

namespace I386

def tables : CpuTables where
  width := 32
  idtDesc := 8
  idtFields address selectorId :=
    [⟨0, 2, address % 2 ^ 16⟩, ⟨6, 2, address / 2 ^ 16 % 2 ^ 16⟩, ⟨2, 2, selectorId * 8⟩, ⟨4, 1, 0⟩,
      ⟨5, 1, GATE_INT ||| PRESENT⟩]
  target mem e := leNat mem e 2 + 2 ^ 16 * leNat mem (e + 6) 2
  codeAccessFlags := CODE_ACCESS
  dataAccessFlags := DATA_ACCESS
  granularityFlags := 0b1000 ||| 0b0100

end I386

/-- No call of `interrupt_bind` writes outside of the IDT. -/
theorem Binding.vector_lt (b : Binding) : b.vector < IDT_LENGTH := by
  have hirq := b.irq.isLt
  rw [vector, IDT_LENGTH, PIC_REMAP_OFFSET]
  split_ifs <;> omega

namespace CpuTables

/-- What both architectures have in common. -/
structure Lawful (t : CpuTables) : Prop where
  bytes : 8 * (t.width / 8) = t.width
  limit : t.idtDesc * IDT_LENGTH ≤ 2 ^ 16
  access : t.codeAccessFlags < 2 ^ 8
  flags : t.granularityFlags < 2 ^ 4
  size : 8 ≤ t.idtDesc
  apart : ∀ a s, (t.idtFields a s).Pairwise Field.Apart
  within : ∀ a s, ∀ f ∈ t.idtFields a s, f.offset + f.bytes ≤ t.idtDesc
  selector : ∀ a s, ⟨2, 2, s * 8⟩ ∈ t.idtFields a s
  attr : ∀ a s, ⟨5, 1, GATE_INT ||| PRESENT⟩ ∈ t.idtFields a s
  ist : ∀ mem e a s, mem (e + 4) = 0#8 → leFields mem e (t.idtFields a s) (e + 4) = 0#8
  target : ∀ mem e a s, t.target (leFields mem e (t.idtFields a s)) e = a % 2 ^ t.width
  reads : ∀ mem mem' e, (∀ a, e ≤ a → a < e + t.idtDesc → mem a = mem' a) →
    t.target mem e = t.target mem' e

end CpuTables

theorem Amd64.tables_lawful : Amd64.tables.Lawful := by
  have hapart : ∀ a s, (tables.idtFields a s).Pairwise Field.Apart := by
    intro a s
    simp only [tables, List.pairwise_cons, List.forall_mem_cons, Field.Apart]
    simp
  refine ⟨by decide, by decide, by decide, by decide, by decide, hapart, fun a s => ?_,
    fun a s => ?_, fun a s => ?_, fun mem e a s h => ?_, fun mem e a s => ?_,
    fun mem mem' e h => ?_⟩
  · simp only [tables, List.forall_mem_cons]
    simp
  · simp [tables]
  · simp [tables]
  · rw [← h]
    apply leFields_other
    simp only [tables, List.forall_mem_cons]
    simp
  · have hload : ∀ f ∈ tables.idtFields a s, leNat (leFields mem e (tables.idtFields a s))
        (e + f.offset) f.bytes = f.value % 2 ^ (8 * f.bytes) := fun f hf =>
      leNat_leFields (hapart a s) hf
    have hlo := hload ⟨0, 2, a % 2 ^ 16⟩ (by simp [tables])
    have hmid := hload ⟨6, 2, a / 2 ^ 16 % 2 ^ 16⟩ (by simp [tables])
    have hhi := hload ⟨8, 4, a / 2 ^ 32 % 2 ^ 32⟩ (by simp [tables])
    show leNat _ (e + 0) 2 + 2 ^ 16 * leNat _ (e + 6) 2 + 2 ^ 32 * leNat _ (e + 8) 4 = a % 2 ^ 64
    rw [hlo, hmid, hhi]
    dsimp only
    omega
  · have hin : ∀ a, e ≤ a → a < e + 16 → mem a = mem' a := h
    show leNat mem e 2 + _ * leNat mem (e + 6) 2 + _ * leNat mem (e + 8) 4 =
      leNat mem' e 2 + _ * leNat mem' (e + 6) 2 + _ * leNat mem' (e + 8) 4
    rw [leNat_congr (p := e) (n := 2) fun a _ _ => hin a (by omega) (by omega),
      leNat_congr (p := e + 6) (n := 2) fun a _ _ => hin a (by omega) (by omega),
      leNat_congr (p := e + 8) (n := 4) fun a _ _ => hin a (by omega) (by omega)]

theorem I386.tables_lawful : I386.tables.Lawful := by
  have hapart : ∀ a s, (tables.idtFields a s).Pairwise Field.Apart := by
    intro a s
    simp only [tables, List.pairwise_cons, List.forall_mem_cons, Field.Apart]
    simp
  have hload : ∀ mem e a s, ∀ f ∈ tables.idtFields a s, leNat (leFields mem e
      (tables.idtFields a s)) (e + f.offset) f.bytes = f.value % 2 ^ (8 * f.bytes) :=
    fun mem e a s f hf => leNat_leFields (hapart a s) hf
  refine ⟨by decide, by decide, by decide, by decide, by decide, hapart, fun a s => ?_,
    fun a s => ?_, fun a s => ?_, fun mem e a s h => ?_, fun mem e a s => ?_,
    fun mem mem' e h => ?_⟩
  · simp only [tables, List.forall_mem_cons]
    simp
  · simp [tables]
  · simp [tables]
  · have hzero := hload mem e a s ⟨4, 1, 0⟩ (by simp [tables])
    rw [leNat, leNat, Nat.mul_zero, Nat.add_zero] at hzero
    exact BitVec.eq_of_toNat_eq hzero
  · have hlo := hload mem e a s ⟨0, 2, a % 2 ^ 16⟩ (by simp [tables])
    have hhi := hload mem e a s ⟨6, 2, a / 2 ^ 16 % 2 ^ 16⟩ (by simp [tables])
    show leNat _ (e + 0) 2 + 2 ^ 16 * leNat _ (e + 6) 2 = a % 2 ^ 32
    rw [hlo, hhi]
    dsimp only
    omega
  · have hin : ∀ a, e ≤ a → a < e + 8 → mem a = mem' a := h
    show leNat mem e 2 + _ * leNat mem (e + 6) 2 = leNat mem' e 2 + _ * leNat mem' (e + 6) 2
    rw [leNat_congr (p := e) (n := 2) fun a _ _ => hin a (by omega) (by omega),
      leNat_congr (p := e + 6) (n := 2) fun a _ _ => hin a (by omega) (by omega)]

namespace CpuTables

variable {t : CpuTables} {idt gdt : Nat} {mem : Mem} (h : t.Lawful)

/-- The gate that `idt_set_entry` makes. -/
def gateTo (t : CpuTables) (address : Nat) : Gate := ⟨address % 2 ^ t.width, 8, 0, GATE_INT, 0⟩

include h

theorem idtSetEntry_other (ha : a < idt + t.idtDesc * irq ∨ idt + t.idtDesc * irq + t.idtDesc ≤ a)
    (mem : Mem) (address : Nat) : t.idtSetEntry idt mem irq address 1 a = mem a := by
  refine leFields_other fun f hf => ?_
  have hle := h.within address 1 f hf
  omega

theorem gate_congr (hm : ∀ a, idt + t.idtDesc * v ≤ a → a < idt + t.idtDesc * v + t.idtDesc →
    mem' a = mem a) : t.gate idt mem' v = t.gate idt mem v := by
  have hsize := h.size
  rw [gate, gate, leNat_congr (p := _ + 5) fun a _ _ => hm a (by omega) (by omega),
    leNat_congr (p := _ + 2) fun a _ _ => hm a (by omega) (by omega),
    leNat_congr (p := _ + 4) fun a _ _ => hm a (by omega) (by omega), h.reads _ _ _ hm]

/-- Round trip of an entry. The byte that `idt_set_entry` leaves alone on amd64 has to be 0. -/
theorem gate_idtSetEntry (hist : mem (idt + t.idtDesc * irq + 4) = 0#8) (address : Nat) :
    t.gate idt (t.idtSetEntry idt mem irq address 1) irq = some (t.gateTo address) := by
  have hfields : ∀ f ∈ t.idtFields address 1, leNat (leFields mem (idt + t.idtDesc * irq)
      (t.idtFields address 1)) (idt + t.idtDesc * irq + f.offset) f.bytes =
      f.value % 2 ^ (8 * f.bytes) := fun f hf => leNat_leFields (h.apart address 1) hf
  have hattr := hfields _ (h.attr address 1)
  have hselector := hfields _ (h.selector address 1)
  have hbyte := h.ist mem (idt + t.idtDesc * irq) address 1 hist
  dsimp only at hattr hselector
  have hist' : leNat (leFields mem (idt + t.idtDesc * irq) (t.idtFields address 1))
      (idt + t.idtDesc * irq + 4) 1 = 0 := by
    rw [leNat, leNat, hbyte]
    rfl
  rw [gate, idtSetEntry, hattr, hselector, hist', h.target, if_neg (by decide)]
  rfl

omit h in
theorem entries_apart (t : CpuTables) (hne : v ≠ irq) :
    t.idtDesc * v + t.idtDesc ≤ t.idtDesc * irq ∨ t.idtDesc * irq + t.idtDesc ≤ t.idtDesc * v := by
  rw [← Nat.mul_succ, ← Nat.mul_succ]
  rcases Nat.lt_or_gt_of_ne hne with hlt | hgt
  · exact .inl (Nat.mul_le_mul_left _ hlt)
  · exact .inr (Nat.mul_le_mul_left _ hgt)

theorem gate_idtSetEntry_other (hne : v ≠ irq) (mem : Mem) (address : Nat) :
    t.gate idt (t.idtSetEntry idt mem irq address 1) v = t.gate idt mem v := by
  have hapart := t.entries_apart hne
  exact gate_congr h fun a _ _ => idtSetEntry_other h (by omega) mem address

end CpuTables

/-- The IDT has these handlers, and what `idt_set_entry` leaves alone is 0. -/
structure Describes (t : CpuTables) (idt : Nat) (mem : Mem) (handlers : Nat → Option Nat) :
    Prop where
  ist : ∀ v < IDT_LENGTH, mem (idt + t.idtDesc * v + 4) = 0#8
  gates : ∀ v < IDT_LENGTH, t.gate idt mem v = (handlers v).map t.gateTo

namespace Describes

variable {t : CpuTables} {idt gdt : Nat} {mem : Mem} (ht : t.Lawful)

include ht

theorem set (h : Describes t idt mem handlers) (hirq : irq < IDT_LENGTH) (address : Nat) :
    Describes t idt (t.idtSetEntry idt mem irq address 1)
      (fun v => if v = irq then some address else handlers v) := by
  have hsize := ht.size
  refine ⟨fun v hv => ?_, fun v hv => ?_⟩
  · by_cases hne : v = irq
    · subst hne
      exact ht.ist _ _ _ _ (h.ist v hv)
    · have hapart := t.entries_apart hne
      rw [CpuTables.idtSetEntry_other ht (by omega), h.ist v hv]
  · by_cases hne : v = irq
    · subst hne
      rw [CpuTables.gate_idtSetEntry ht (h.ist v hv), if_pos rfl]
      rfl
    · rw [CpuTables.gate_idtSetEntry_other ht hne, if_neg hne, h.gates v hv]

theorem sets (h : Describes t idt mem handlers) (l : List Nat) (hl : ∀ i ∈ l, i < IDT_LENGTH)
    (f : Nat → Nat) : Describes t idt
      (l.foldl (fun mem i => t.idtSetEntry idt mem i (f i) 1) mem)
      (fun v => if v ∈ l then some (f v) else handlers v) := by
  induction l generalizing mem handlers with
  | nil => exact h
  | cons i l ih =>
    rw [List.forall_mem_cons] at hl
    have hrest := ih (h.set ht hl.1 (f i)) hl.2
    rw [List.foldl_cons]
    convert hrest using 2 with v
    by_cases hv : v = i
    · subst hv
      simp
    · simp [hv]

omit ht in
theorem congr (h : Describes t idt mem handlers)
    (hsame : ∀ v < IDT_LENGTH, handlers v = handlers' v) : Describes t idt mem handlers' :=
  ⟨h.ist, fun v hv => by rw [h.gates v hv, hsame v hv]⟩

theorem idtInit (hzero : ∀ a, idt ≤ a → a < idt + t.idtDesc * IDT_LENGTH → mem a = 0#8)
    (l : IsrLabels) : Describes t idt (t.idtInit l idt mem) (handler l []) := by
  have hsize := ht.size
  have hempty : Describes t idt mem fun _ => none := by
    have hin : ∀ v < IDT_LENGTH, t.idtDesc * v + t.idtDesc ≤ t.idtDesc * IDT_LENGTH :=
      fun v hv => Nat.mul_le_mul_left _ hv
    refine ⟨fun v hv => ?_, fun v hv => ?_⟩
    · have hle := hin v hv
      exact hzero _ (by omega) (by omega)
    · have hle := hin v hv
      rw [CpuTables.gate, leNat_zero (p := _ + 5) fun a _ _ => hzero a (by omega) (by omega)]
      rfl
  have hfirst := hempty.sets ht (List.range 19) (by decide) l.isr
  have hstub := hfirst.sets ht (List.range' PIC_REMAP_OFFSET (IDT_LENGTH - PIC_REMAP_OFFSET))
    (fun i hi => by rw [List.mem_range'_1] at hi; exact hi.2) fun _ => l.isrStub
  have hlast := hstub.set ht (show PIC_REMAP_OFFSET + 7 < IDT_LENGTH by decide) l.isrSpurious
  refine hlast.congr fun v hv => ?_
  have hstubs : v ∈ List.range' PIC_REMAP_OFFSET (IDT_LENGTH - PIC_REMAP_OFFSET) ↔
      ¬ v < PIC_REMAP_OFFSET := by
    rw [List.mem_range'_1]
    rw [IDT_LENGTH] at hv ⊢
    omega
  simp only [hstubs, List.mem_range, handler, List.reverse_nil, List.find?_nil]
  rw [PIC_REMAP_OFFSET]
  split_ifs <;> first | rfl | omega

theorem bind (h : Describes t idt mem (handler l bindings)) (b : Binding) :
    Describes t idt (t.idtSetEntry idt mem b.vector b.address 1) (handler l (bindings ++ [b])) := by
  refine (h.set ht b.vector_lt b.address).congr fun v _ => ?_
  rw [handler, handler, List.reverse_concat, List.find?_cons]
  by_cases hv : v = b.vector
  · rw [if_pos hv, decide_eq_true hv.symm]
  · rw [if_neg hv, decide_eq_false fun he => hv he.symm]

theorem frame (h : Describes t idt mem handlers)
    (hm : ∀ a, idt ≤ a → a < idt + t.idtDesc * IDT_LENGTH → mem' a = mem a) :
    Describes t idt mem' handlers := by
  have hsize := ht.size
  have hin : ∀ v < IDT_LENGTH, t.idtDesc * v + t.idtDesc ≤ t.idtDesc * IDT_LENGTH :=
    fun v hv => Nat.mul_le_mul_left _ hv
  refine ⟨fun v hv => ?_, fun v hv => ?_⟩
  · have hle := hin v hv
    rw [hm _ (by omega) (by omega), h.ist v hv]
  · have hle := hin v hv
    rw [CpuTables.gate_congr ht fun a _ _ => hm a (by omega) (by omega), h.gates v hv]

end Describes

theorem foldl_keeps {xs : List α} {f : Mem → α → Mem}
    (hf : ∀ x ∈ xs, ∀ mem, f mem x a = mem a) (mem : Mem) : xs.foldl f mem a = mem a := by
  induction xs generalizing mem with
  | nil => rfl
  | cons x xs ih =>
    rw [List.forall_mem_cons] at hf
    rw [List.foldl_cons, ih hf.2, hf.1]

section segments

variable {gdt : Nat} {mem : Mem}

/-- Round trip of an entry of the GDT. -/
theorem segment_gdtSetEntry (mem : Mem) (n : Nat) (hoffset : offset < 2 ^ 32)
    (hlimit : size < 2 ^ 20) (haccess : access < 2 ^ 8) (hflags : flags < 2 ^ 4) :
    segment gdt (gdtSetEntry gdt mem n offset size access flags) (8 * n) =
      ⟨offset, size, access, flags⟩ := by
  have hapart : (gdtFields offset size access flags).Pairwise Field.Apart := by
    simp only [gdtFields, List.pairwise_cons, List.forall_mem_cons, Field.Apart]
    simp
  have hload : ∀ f ∈ gdtFields offset size access flags, leNat (leFields mem (gdt + 8 * n)
      (gdtFields offset size access flags)) (gdt + 8 * n + f.offset) f.bytes =
        f.value % 2 ^ (8 * f.bytes) := fun f hf => leNat_leFields hapart hf
  rw [gdtFields] at hload
  simp only [List.forall_mem_cons] at hload
  obtain ⟨hlo, hmid, hhi, hsize, hgran, haccess', -⟩ := hload
  have hor : size / 2 ^ 16 % 2 ^ 4 ||| flags * 2 ^ 4 % 2 ^ 8 = size / 2 ^ 16 + flags * 2 ^ 4 := by
    rw [Nat.mod_eq_of_lt (by omega), Nat.mod_eq_of_lt (by omega), Nat.or_comm, Nat.add_comm,
      Nat.mul_comm]
    exact (Nat.two_pow_add_eq_or_of_lt (by omega) flags).symm
  have hentry : gdt + 8 * n / 8 * 8 = gdt + 8 * n := by omega
  rw [segment, hentry]
  rw [Nat.add_zero] at hsize
  rw [gdtSetEntry, gdtFields, hlo, hmid, hhi, hsize, hgran, haccess', hor, Seg.mk.injEq]
  omega

theorem gdtSetEntry_other (ha : a < gdt + 8 * n ∨ gdt + 8 * n + 8 ≤ a) (mem : Mem)
    (offset size access flags : Nat) :
    gdtSetEntry gdt mem n offset size access flags a = mem a := by
  apply leFields_other
  simp only [gdtFields, List.forall_mem_cons]
  refine ⟨?_, ?_, ?_, ?_, ?_, ?_, List.forall_mem_nil _⟩ <;> omega

theorem segment_congr (h : ∀ a, gdt + selector / 8 * 8 ≤ a → a < gdt + selector / 8 * 8 + 8 →
    mem' a = mem a) : segment gdt mem' selector = segment gdt mem selector := by
  simp only [segment]
  rw [leNat_congr (p := _ + 2) fun a _ _ => h a (by omega) (by omega),
    leNat_congr (p := _ + 4) fun a _ _ => h a (by omega) (by omega),
    leNat_congr (p := _ + 7) fun a _ _ => h a (by omega) (by omega),
    leNat_congr (p := gdt + selector / 8 * 8) fun a _ _ => h a (by omega) (by omega),
    leNat_congr (p := _ + 6) fun a _ _ => h a (by omega) (by omega),
    leNat_congr (p := _ + 5) fun a _ _ => h a (by omega) (by omega)]

end segments

section frame

variable {t : CpuTables} {idt gdt : Nat} {mem : Mem} (ht : t.Lawful)

include ht

theorem idtSetEntry_outside (hirq : irq < IDT_LENGTH)
    (ha : a < idt ∨ idt + t.idtDesc * IDT_LENGTH ≤ a) (mem : Mem) (address : Nat) :
    t.idtSetEntry idt mem irq address 1 a = mem a := by
  have hle : t.idtDesc * irq + t.idtDesc ≤ t.idtDesc * IDT_LENGTH := Nat.mul_le_mul_left _ hirq
  exact CpuTables.idtSetEntry_other ht (by omega) mem address

theorem idtInit_outside (ha : a < idt ∨ idt + t.idtDesc * IDT_LENGTH ≤ a) (l : IsrLabels)
    (mem : Mem) : t.idtInit l idt mem a = mem a := by
  rw [CpuTables.idtInit, idtSetEntry_outside ht (by decide) ha, foldl_keeps, foldl_keeps]
  · intro i hi mem
    exact idtSetEntry_outside ht (Nat.lt_trans (List.mem_range.1 hi) (by decide)) ha mem _
  · intro i hi mem
    rw [List.mem_range'_1] at hi
    exact idtSetEntry_outside ht hi.2 ha mem _

end frame

theorem gdtInit_outside (t : CpuTables) (ha : a < gdt ∨ gdt + 8 * GDT_LENGTH ≤ a) (mem : Mem) :
    t.gdtInit gdt mem a = mem a := by
  rw [GDT_LENGTH] at ha
  rw [CpuTables.gdtInit, gdtSetEntry_other (by omega), gdtSetEntry_other (by omega),
    gdtSetEntry_other (by omega)]

section install

variable {t : CpuTables} {mem : Mem}

theorem setPtr_other (ha : a < p ∨ p + t.ptrBytes ≤ a) (ptr : TablePtr) :
    t.setPtr mem p ptr a = mem a := by
  apply leFields_other
  rw [CpuTables.ptrBytes] at ha
  simp only [List.forall_mem_cons]
  refine ⟨?_, ?_, List.forall_mem_nil _⟩ <;> omega

/-- Round trip of an operand. -/
theorem loadPtr_setPtr (hwidth : 8 * (t.width / 8) = t.width) (hsize : ptr.size < 2 ^ 16)
    (hoffset : ptr.offset < 2 ^ t.width) : t.loadPtr (t.setPtr mem p ptr) p = ptr := by
  have hapart : [(⟨0, 2, ptr.size⟩ : Field), ⟨2, t.width / 8, ptr.offset⟩].Pairwise
      Field.Apart := by
    simp [Field.Apart]
  have hfirst : leNat (t.setPtr mem p ptr) (p + 0) 2 = ptr.size % 2 ^ (8 * 2) :=
    leNat_leFields hapart List.mem_cons_self
  have hsecond : leNat (t.setPtr mem p ptr) (p + 2) (t.width / 8) =
      ptr.offset % 2 ^ (8 * (t.width / 8)) :=
    leNat_leFields hapart (List.mem_cons_of_mem _ List.mem_cons_self)
  rw [Nat.add_zero, Nat.mod_eq_of_lt hsize] at hfirst
  rw [hwidth, Nat.mod_eq_of_lt hoffset] at hsecond
  rw [CpuTables.loadPtr, hfirst, hsecond]

end install

/-- A byte that is in no table and in no pointer to one. -/
def TableSymbols.Outside {t : CpuTables} (x : TableSymbols t) (a : Nat) : Prop :=
  ∀ r ∈ t.ranges x.gdt x.gdtPtr x.idt x.idtPtr, a < r.1 ∨ r.1 + r.2 ≤ a

/-- What the CPU finds after booting and some calls of `interrupt_bind`. The selector in all the
gates is 8. -/
structure Dispatches (t : CpuTables) (l : IsrLabels) (x : TableSymbols t) (bindings : List Binding)
    (mem : Mem) (s : TableCpu) : Prop where
  gates : ∀ v < IDT_LENGTH, t.gateOf s v = (handler l bindings v).map t.gateTo
  code : segmentOf s 8 = some ⟨0, 0xFFFFF, t.codeAccessFlags, t.granularityFlags⟩
  outside : ∀ a, x.Outside a → s.mem a = mem a

/-- The tables and the registers after booting and some calls of `interrupt_bind`. -/
structure Booted (t : CpuTables) (l : IsrLabels) (x : TableSymbols t) (bindings : List Binding)
    (mem : Mem) (s : TableCpu) : Prop where
  describes : Describes t x.idt s.mem (handler l bindings)
  idtr : s.idtr = ⟨t.idtDesc * IDT_LENGTH - 1, x.idt⟩
  gdtr : s.gdtr = ⟨8 * GDT_LENGTH - 1, x.gdt⟩
  code : segment x.gdt s.mem 8 = ⟨0, 0xFFFFF, t.codeAccessFlags, t.granularityFlags⟩
  outside : ∀ a, x.Outside a → s.mem a = mem a

namespace Booted

variable {t : CpuTables} {x : TableSymbols t} {mem : Mem} {s : TableCpu} (ht : t.Lawful)

theorem ranges_apart (x : TableSymbols t) :
    (x.gdt + 24 ≤ x.gdtPtr ∨ x.gdtPtr + t.ptrBytes ≤ x.gdt) ∧
    (x.gdt + 24 ≤ x.idt ∨ x.idt + t.idtDesc * IDT_LENGTH ≤ x.gdt) ∧
    (x.gdt + 24 ≤ x.idtPtr ∨ x.idtPtr + t.ptrBytes ≤ x.gdt) ∧
    (x.gdtPtr + t.ptrBytes ≤ x.idt ∨ x.idt + t.idtDesc * IDT_LENGTH ≤ x.gdtPtr) ∧
    (x.idt + t.idtDesc * IDT_LENGTH ≤ x.idtPtr ∨ x.idtPtr + t.ptrBytes ≤ x.idt) := by
  have hapart := x.apart
  simp only [CpuTables.ranges, List.pairwise_cons, List.forall_mem_cons, GDT_LENGTH] at hapart
  obtain ⟨⟨hgdtPtr, hidt, hidtPtr, -⟩, ⟨hptrIdt, -⟩, ⟨hidtPtr', -⟩, -⟩ := hapart
  exact ⟨hgdtPtr, hidt, hidtPtr, hptrIdt, hidtPtr'⟩

include ht

theorem idtInstall (h : Describes t x.idt s.mem (handler l bindings))
    (hgdtr : s.gdtr = ⟨8 * GDT_LENGTH - 1, x.gdt⟩)
    (hcode : segment x.gdt s.mem 8 = ⟨0, 0xFFFFF, t.codeAccessFlags, t.granularityFlags⟩)
    (hout : ∀ a, x.Outside a → s.mem a = mem a) :
    Booted t l x bindings mem (t.idtInstall x s) := by
  obtain ⟨-, -, hgdt, -, hidt⟩ := ranges_apart x
  have hsize := ht.size
  have hlimit := ht.limit
  refine ⟨h.frame ht fun a _ _ => setPtr_other (by omega) _, ?_, hgdtr, ?_, fun a ha => ?_⟩
  · exact loadPtr_setPtr ht.bytes (by dsimp only; omega) x.idt_lt
  · rw [← hcode]
    exact segment_congr fun a _ _ => setPtr_other (by omega) _
  · rw [← hout a ha]
    exact setPtr_other (ha (x.idtPtr, t.ptrBytes) (by simp [CpuTables.ranges])) _

theorem bind (h : Booted t l x bindings mem s) (b : Binding) :
    Booted t l x (bindings ++ [b]) mem (t.interruptBind x s b) := by
  obtain ⟨-, hgdt, -, -, -⟩ := ranges_apart x
  refine idtInstall ht (h.describes.bind ht b) h.gdtr ?_ fun a ha => ?_
  · rw [← h.code]
    exact segment_congr fun a _ _ => idtSetEntry_outside ht b.vector_lt (by omega) _ _
  · rw [← h.outside a ha]
    exact idtSetEntry_outside ht b.vector_lt
      (ha (x.idt, t.idtDesc * IDT_LENGTH) (by simp [CpuTables.ranges])) _ _

theorem kentry (l : IsrLabels) (hzero : ∀ a, x.idt ≤ a → a < x.idt + t.idtDesc * IDT_LENGTH →
    s.mem a = 0#8) : Booted t l x [] s.mem (t.kentry l x s) := by
  obtain ⟨hgdtPtr, hidt, -, hptr, -⟩ := ranges_apart x
  have hcode : segment x.gdt (t.gdtInit x.gdt s.mem) 8 =
      ⟨0, 0xFFFFF, t.codeAccessFlags, t.granularityFlags⟩ := by
    rw [CpuTables.gdtInit, segment_congr fun a _ _ => gdtSetEntry_other (by omega) ..]
    exact segment_gdtSetEntry _ 1 (by decide) (by decide) ht.access ht.flags
  have hzero' : ∀ a, x.idt ≤ a → a < x.idt + t.idtDesc * IDT_LENGTH →
      t.setPtr (t.gdtInit x.gdt s.mem) x.gdtPtr ⟨8 * GDT_LENGTH - 1, x.gdt⟩ a = 0#8 := by
    intro a hle hlt
    rw [setPtr_other (by omega), gdtInit_outside t (by rw [GDT_LENGTH]; omega), hzero a hle hlt]
  refine idtInstall ht (.idtInit ht hzero' l) ?_ ?_ fun a ha => ?_
  · exact loadPtr_setPtr ht.bytes (show 8 * GDT_LENGTH - 1 < 2 ^ 16 by decide) x.gdt_lt
  · rw [← hcode]
    refine segment_congr fun a _ _ => ?_
    have hptr : t.setPtr (t.gdtInit x.gdt s.mem) x.gdtPtr ⟨8 * GDT_LENGTH - 1, x.gdt⟩ a =
        t.gdtInit x.gdt s.mem a := setPtr_other (by omega) _
    exact (idtInit_outside ht (by omega) l _).trans hptr
  · rw [TableSymbols.Outside] at ha
    simp only [CpuTables.ranges, List.forall_mem_cons] at ha
    obtain ⟨hgdt, hptr, hidt, -⟩ := ha
    have hmem : t.setPtr (t.gdtInit x.gdt s.mem) x.gdtPtr ⟨8 * GDT_LENGTH - 1, x.gdt⟩ a =
        s.mem a := (setPtr_other hptr _).trans (gdtInit_outside t hgdt _)
    exact (idtInit_outside ht hidt l _).trans hmem

theorem run (h : Booted t l x [] mem s) (bindings : List Binding) :
    Booted t l x bindings mem (bindings.foldl (t.interruptBind x) s) := by
  induction bindings using List.reverseRecOn with
  | nil => exact h
  | append_singleton bindings b ih =>
    rw [List.foldl_append]
    exact ih.bind ht b

theorem dispatches (h : Booted t l x bindings mem s) : Dispatches t l x bindings mem s := by
  have hsize := ht.size
  refine ⟨fun v hv => ?_, ?_, h.outside⟩
  · have hle : t.idtDesc * v + t.idtDesc ≤ t.idtDesc * IDT_LENGTH := Nat.mul_le_mul_left _ hv
    rw [CpuTables.gateOf, h.idtr]
    dsimp only
    rw [if_pos (by omega), h.describes.gates v hv]
  · rw [segmentOf, h.gdtr, if_pos (show 8 / 8 * 8 + 8 ≤ 8 * GDT_LENGTH - 1 + 1 by decide), ← h.code]

end Booted

/-- The IDT is in `.bss`, so it is zero-filled. -/
theorem run_dispatches (ht : t = Amd64.tables ∨ t = I386.tables) (x : TableSymbols t) (s : TableCpu)
    (hzero : ∀ a, x.idt ≤ a → a < x.idt + t.idtDesc * IDT_LENGTH → s.mem a = 0#8) (l : IsrLabels)
    (bindings : List Binding) : Dispatches t l x bindings s.mem (t.run l x s bindings) := by
  have hlawful : t.Lawful := by
    rcases ht with rfl | rfl
    · exact Amd64.tables_lawful
    · exact I386.tables_lawful
  exact ((Booted.kentry hlawful l hzero).run hlawful bindings).dispatches hlawful

def amd64Symbols : TableSymbols Amd64.tables where
  gdt := 0x1000
  gdtPtr := 0x1100
  idt := 0x2000
  idtPtr := 0x1110
  gdt_lt := by decide
  idt_lt := by decide
  apart := by decide

/-- The PIT's handler is bound, and bound again. -/
theorem run_dispatches_pit :
    let bindings := [⟨0, 0xFFFFFFFF80123450, true⟩, ⟨0, 0xFFFFFFFF80123460, true⟩]
    let s : TableCpu := ⟨fun _ => 0#8, ⟨0, 0⟩, ⟨0, 0⟩⟩
    Dispatches Amd64.tables ⟨fun v => v, 0x100, 0x101⟩ amd64Symbols bindings s.mem
      (Amd64.tables.run ⟨fun v => v, 0x100, 0x101⟩ amd64Symbols s bindings) :=
  run_dispatches (.inl rfl) _ _ (fun _ _ _ => rfl) _ _

end Tupai
