import Tupai.Lib.Machine

namespace Tupai
open Lib
set_option autoImplicit true

def ISR_DUMMY_ERROR : Nat := 0

section Stubs

variable {R : Type} {k : Nat}

/-- An ISR of an exception without an error code. Both kinds of ISRs jump to `isr_common` then. -/
def isrDummy (v : Nat) : List (Instr R k) :=
  [.pushImm (BitVec.ofNat _ ISR_DUMMY_ERROR), .pushImm (BitVec.ofNat _ v)]

/-- An ISR of an exception for which the CPU has pushed an error code. -/
def isrError (v : Nat) : List (Instr R k) := [.pushImm (BitVec.ofNat _ v)]

def isr0 : List (Instr R k) := isrDummy 0

def isr1 : List (Instr R k) := isrDummy 1

def isr2 : List (Instr R k) := isrDummy 2

def isr3 : List (Instr R k) := isrDummy 3

def isr4 : List (Instr R k) := isrDummy 4

def isr5 : List (Instr R k) := isrDummy 5

def isr6 : List (Instr R k) := isrDummy 6

def isr7 : List (Instr R k) := isrDummy 7

def isr8 : List (Instr R k) := isrError 8

def isr9 : List (Instr R k) := isrDummy 9

def isr10 : List (Instr R k) := isrError 10

def isr11 : List (Instr R k) := isrError 11

def isr12 : List (Instr R k) := isrError 12

def isr13 : List (Instr R k) := isrError 13

def isr14 : List (Instr R k) := isrError 14

def isr15 : List (Instr R k) := isrDummy 15

def isr16 : List (Instr R k) := isrDummy 16

def isr17 : List (Instr R k) := isrDummy 17

def isr18 : List (Instr R k) := isrDummy 18

/-- The entries for exceptions that `idt_init` sets. -/
def isr (v : Fin 19) : List (Instr R k) :=
  [isr0, isr1, isr2, isr3, isr4, isr5, isr6, isr7, isr8, isr9, isr10, isr11, isr12, isr13, isr14,
    isr15, isr16, isr17, isr18].getD v []

end Stubs

/-- The vectors for which the CPU pushes an error code. -/
def ERROR_VECTORS : List (Fin 19) := [8, 10, 11, 12, 13, 14, 17]

/-- The words that `iret` takes from the stack at most, of which the instruction pointer is the
lowest. -/
def FRAME_WORDS : Nat := 5

/-- The labels in the section `.bss` of `exception.s`. -/
inductive Tmp where
  | tmpExceptionErr
  | tmpExceptionCode
deriving DecidableEq

/-- The ISRs of an architecture: its stack pointer, the register for results, the registers that are
saved, the variables, `isr_common` and `isr_pit` up to the call of `exception_handle` or
`pit_isr_main`, and what follows the call in both of them, up to `iret`. `argument` is where a
function that is called finds its arguments. -/
structure IsrCode (R : Type) (k : Nat) where
  sp : R
  result : R
  general : List R
  tmpExceptionErr : Word k
  tmpExceptionCode : Word k
  isrCommon : List (Instr R k)
  isrPit : List (Instr R k)
  restore : List (Instr R k)
  argument : Machine R k → Fin 3 → Word k

namespace Amd64

inductive Reg where
  | rax | rbx | rcx | rdx | rsi | rdi | rbp | rsp
  | r8 | r9 | r10 | r11 | r12 | r13 | r14 | r15
deriving DecidableEq

/-- The registers that `PUSH_REGS` pushes. -/
def general : List Reg :=
  [.rax, .rbx, .rcx, .rdx, .rsi, .rdi, .rbp, .r8, .r9, .r10, .r11, .r12, .r13, .r14, .r15]

def pushRegs : List (Instr Reg 8) :=
  [.push .rax, .push .rbx, .push .rcx, .push .rdx, .push .rsi, .push .rdi, .push .rbp, .push .r8,
    .push .r9, .push .r10, .push .r11, .push .r12, .push .r13, .push .r14, .push .r15]

def popRegs : List (Instr Reg 8) :=
  [.pop .r15, .pop .r14, .pop .r13, .pop .r12, .pop .r11, .pop .r10, .pop .r9, .pop .r8,
    .pop .rbp, .pop .rdi, .pop .rsi, .pop .rdx, .pop .rcx, .pop .rbx, .pop .rax]

/-- Section `.bss` of `exception.s`, where both `.quad` directives have no operand. -/
def bss : List (Directive Tmp) :=
  [.label .tmpExceptionErr, .data 8 [], .label .tmpExceptionCode, .data 8 []]

/-- The section `.bss` of `exception.s` is at `start`. -/
def tmp (start : Word 8) (l : Tmp) : Word 8 := labelAddress l start bss

def isrCommon (start : Word 8) : List (Instr Reg 8) :=
  [.push .rax,
    .load .rax .rsp 16,
    .storeAbs (tmp start .tmpExceptionErr) .rax,
    .load .rax .rsp 8,
    .storeAbs (tmp start .tmpExceptionCode) .rax,
    .pop .rax,
    .add .rsp 16] ++
  pushRegs ++
  [.loadAbs .rdx (tmp start .tmpExceptionErr),
    .loadAbs .rsi (tmp start .tmpExceptionCode),
    .mov .rdi .rsp,
    .cld]

def isrPit : List (Instr Reg 8) := pushRegs ++ [.cld, .mov .rdi .rsp]

/-- The first arguments are in registers. -/
def argument (m : Machine Reg 8) (i : Fin 3) : Word 8 :=
  match i with
  | 0 => m.regs .rdi
  | 1 => m.regs .rsi
  | 2 => m.regs .rdx

def code (start : Word 8) : IsrCode Reg 8 where
  sp := .rsp
  result := .rax
  general := general
  tmpExceptionErr := tmp start .tmpExceptionErr
  tmpExceptionCode := tmp start .tmpExceptionCode
  isrCommon := isrCommon start
  isrPit := isrPit
  restore := [.mov .rsp .rax] ++ popRegs
  argument := argument

end Amd64

namespace I386

inductive Reg where
  | eax | ecx | edx | ebx | esp | ebp | esi | edi
deriving DecidableEq

/-- The registers that `pushal` pushes. It pushes the stack pointer as it was before. -/
def general : List Reg := [.eax, .ecx, .edx, .ebx, .esp, .ebp, .esi, .edi]

def bss : List (Directive Tmp) :=
  [.label .tmpExceptionErr, .data 4 [0], .label .tmpExceptionCode, .data 4 [0]]

def tmp (start : Word 4) (l : Tmp) : Word 4 := labelAddress l start bss

def isrCommon (start : Word 4) : List (Instr Reg 4) :=
  [.push .eax,
    .load .eax .esp 8,
    .storeAbs (tmp start .tmpExceptionErr) .eax,
    .load .eax .esp 4,
    .storeAbs (tmp start .tmpExceptionCode) .eax,
    .pop .eax,
    .add .esp 8,
    .pushAll general,
    .mov .eax .esp,
    .pushAbs (tmp start .tmpExceptionErr),
    .pushAbs (tmp start .tmpExceptionCode),
    .push .eax,
    .cld]

def isrPit : List (Instr Reg 4) := [.pushAll general, .cld, .push .esp]

/-- All arguments are on the stack. -/
def argument (m : Machine Reg 4) (i : Fin 3) : Word 4 :=
  m.mem.load (m.regs .esp + BitVec.ofNat _ (4 * i))

def code (start : Word 4) : IsrCode Reg 4 where
  sp := .esp
  result := .eax
  general := general
  tmpExceptionErr := tmp start .tmpExceptionErr
  tmpExceptionCode := tmp start .tmpExceptionCode
  isrCommon := isrCommon start
  isrPit := isrPit
  restore := [.mov .esp .eax, .popAll general.reverse]
  argument := argument

end I386

namespace IsrCode

variable {R : Type} {k : Nat}

/-- More words than the ISRs push. -/
def depth (c : IsrCode R k) : Nat := c.general.length + 4

/-- The stack pointer points at the interrupted instruction pointer. The variables of `exception.s`
are elsewhere than the part of the stack that the ISRs use. -/
structure Interrupted (c : IsrCode R k) extends Machine R k where
  apartErr : Bytes.Apart (regs c.sp - BitVec.ofNat _ (k * c.depth)) (k * (c.depth + FRAME_WORDS))
    c.tmpExceptionErr
  apartCode : Bytes.Apart (regs c.sp - BitVec.ofNat _ (k * c.depth)) (k * (c.depth + FRAME_WORDS))
    c.tmpExceptionCode

/-- The error code of an exception: `e` if the CPU pushes one. -/
def errorCode (v : Fin 19) (e : Word k) : Word k := if v ∈ ERROR_VECTORS then e else 0

variable [DecidableEq R]

/-- Exception `v` occurs, and its ISR runs up to the jump. -/
def enter (c : IsrCode R k) (m : Machine R k) (v : Fin 19) (e : Word k) : Machine R k :=
  Machine.exec c.sp (if v ∈ ERROR_VECTORS then m.push c.sp e else m) (isr v)

/-- The machine that calls `exception_handle(stack, code, error)`. -/
def exceptionCall (c : IsrCode R k) (m : Machine R k) (v : Fin 19) (e : Word k) : Machine R k :=
  (c.enter m v e).exec c.sp c.isrCommon

/-- The machine that calls `pit_isr_main(stack_ptr)`. -/
def pitCall (c : IsrCode R k) (m : Machine R k) : Machine R k := m.exec c.sp c.isrPit

/-- At `stack` are the registers of the interrupted machine `m`, directly below the interrupted
instruction pointer. -/
structure Saves (c : IsrCode R k) (m m' : Machine R k) (stack : Word k) : Prop where
  below : stack + BitVec.ofNat _ (k * c.general.length) = m.regs c.sp
  words : m'.mem.words stack (c.general.length + FRAME_WORDS) =
    (c.general.map m.regs).reverse ++ m.mem.words (m.regs c.sp) FRAME_WORDS

/-- The exception reports its vector and its error code, and saves the registers as `isr_pit` does,
so that the end of both routines restores them. -/
structure Reports (c : IsrCode R k) (m : Machine R k) (v : Fin 19) (e : Word k) : Prop where
  error : c.argument (c.exceptionCall m v e) 2 = errorCode v e
  code : c.argument (c.exceptionCall m v e) 1 = BitVec.ofNat _ v
  saves : c.Saves m (c.exceptionCall m v e) (c.argument (c.exceptionCall m v e) 0)
  pit : c.Saves m (c.pitCall m) (c.argument (c.pitCall m) 0)
  restores : ∀ m', c.Saves m m' (m'.regs c.result) → (m'.exec c.sp c.restore).regs = m.regs

end IsrCode

end Tupai
