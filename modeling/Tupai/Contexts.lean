import Tupai.Exception
import Tupai.Lib.Frames
import Tupai.Lib.Transition

namespace Tupai
open Lib
set_option autoImplicit true

/-- The routines of `isr.s`. -/
inductive Isr where
  | isrStub
  | isrPit
  | isrKbd
  | isrSpurious
  | isrSyscall
deriving DecidableEq

/-- What the CPU does at an interrupt and at `iret`, and the routines of `isr.s` up to the call of
their main function. The CPU saves `X` besides the stack pointer, in `frameWords` words. A system
call has its request and its arguments in `callRegs`, and a main function finds its own where
`passed` says. -/
structure IsrFile (R X : Type) (k : Nat) extends IsrCode R k where
  frameWords : Nat
  enter : Machine R k → X → Machine R k
  iret : Machine R k → Machine R k × X
  routine : Isr → List (Instr R k)
  callRegs : Fin 4 → R
  passed : Machine R k → Fin 5 → Word k

namespace Amd64

structure CpuFrame where
  rip : Word 8
  cs : Word 8
  rflags : Word 8
  ss : Word 8

/-- In long mode the CPU aligns the stack, and always saves the stack pointer. -/
def enter (m : Machine Reg 8) (x : CpuFrame) : Machine Reg 8 :=
  (m.set .rsp (m.regs .rsp - m.regs .rsp % 16)).pushAll .rsp
    [x.ss, m.regs .rsp, x.rflags, x.cs, x.rip]

def iretq (m : Machine Reg 8) : Machine Reg 8 × CpuFrame :=
  (m.set .rsp (m.word .rsp 3), ⟨m.word .rsp 0, m.word .rsp 1, m.word .rsp 2, m.word .rsp 4⟩)

def isrStub : List (Instr Reg 8) := isrPit

def isrKbd : List (Instr Reg 8) := isrPit

def isrSpurious : List (Instr Reg 8) := isrPit

def isrSyscall : List (Instr Reg 8) :=
  pushRegs ++
  [.cld,
    .push .rax, .push .rbx, .push .rcx, .push .rdx,
    .pop .r8, .pop .rcx, .pop .rdx, .pop .rsi,
    .mov .rdi .rsp]

def routine : Isr → List (Instr Reg 8)
  | .isrStub => isrStub
  | .isrPit => isrPit
  | .isrKbd => isrKbd
  | .isrSpurious => isrSpurious
  | .isrSyscall => isrSyscall

def file (start : Word 8) : IsrFile Reg CpuFrame 8 where
  toIsrCode := code start
  frameWords := 5
  enter := enter
  iret := iretq
  routine := routine
  callRegs i := [.rax, .rbx, .rcx, .rdx].get i
  passed m i := m.regs ([.rdi, .rsi, .rdx, .rcx, .r8].get i)

end Amd64

namespace I386

structure CpuFrame where
  eip : Word 4
  cs : Word 4
  eflags : Word 4

/-- Within the kernel, the CPU does not save the stack pointer. -/
def enter (m : Machine Reg 4) (x : CpuFrame) : Machine Reg 4 :=
  m.pushAll .esp [x.eflags, x.cs, x.eip]

def iret (m : Machine Reg 4) : Machine Reg 4 × CpuFrame :=
  (m.set .esp (m.regs .esp + 12), ⟨m.word .esp 0, m.word .esp 1, m.word .esp 2⟩)

def isrStub : List (Instr Reg 4) := isrPit

def isrKbd : List (Instr Reg 4) := isrPit

def isrSpurious : List (Instr Reg 4) := isrPit

def isrSyscall : List (Instr Reg 4) :=
  [.pushAll general,
    .cld,
    .push .edx, .push .ecx, .push .ebx, .push .eax,
    .mov .eax .esp,
    .add .eax 16,
    .push .eax]

def routine : Isr → List (Instr Reg 4)
  | .isrStub => isrStub
  | .isrPit => isrPit
  | .isrKbd => isrKbd
  | .isrSpurious => isrSpurious
  | .isrSyscall => isrSyscall

def file (start : Word 4) : IsrFile Reg CpuFrame 4 where
  toIsrCode := code start
  frameWords := 3
  enter := enter
  iret := iret
  routine := routine
  callRegs i := [.eax, .ebx, .ecx, .edx].get i
  passed m i := m.word .esp i

end I386

/-- What an interrupt left: what the interrupted code had in its registers and in the CPU's frame,
where the stack has it, and which instructions are still to come until `iret`. Before the main
function returns, these are all that restore. -/
structure Saved (R X : Type) (k : Nat) where
  stack : Word k
  left : List (Instr R k)
  regs : R → Word k
  cpu : X

/-- A machine that runs on the stack of a thread, and what is saved on each of the stacks, the last
one first. -/
structure ContextRun (R X : Type) (k : Nat) where
  machine : Machine R k
  thread : Nat
  saved : Nat → List (Saved R X k)

namespace IsrFile

variable {R X : Type} {k : Nat}

/-- The bytes on the stack that are still to be read. -/
def extent (f : IsrFile R X k) (v : Saved R X k) : Nat :=
  k * ((v.left.flatMap Instr.pops).length + f.frameWords)

/-- Enough room on the stack for an interrupt: for the alignment, the frame, the registers and the
arguments. -/
def room (f : IsrFile R X k) : Nat := 16 + k * (f.general.length + f.frameWords) + k * 5

/-- The stack pointer is in a stack, below all that is saved there, with this much room. -/
def OnStack (f : IsrFile R X k) (g : Region k) (saved : List (Saved R X k)) (m : Machine R k)
    (room : Nat) : Prop :=
  ∃ o, room ≤ o ∧ o ≤ g.limit (saved.map Saved.stack) ∧ m.regs f.sp = g.place o

variable [DecidableEq R]

/-- An interrupt with its routine, up to the call of the main function. -/
def interrupt (f : IsrFile R X k) (m : Machine R k) (x : X) (r : Isr) : Machine R k :=
  (f.enter m x).exec f.sp (f.routine r)

end IsrFile

variable {R X : Type} {k : Nat} {f : IsrFile R X k} {stack : Nat → Region k}

/-- The machine is not in the instructions that restore. -/
def ContextRun.InCode (f : IsrFile R X k) (s : ContextRun R X k) : Prop :=
  ∀ v ∈ (s.saved s.thread).head?, v.left = f.restore

/-- The stack pointer that the main function gets says where everything is saved. -/
def ContextRun.interrupt [DecidableEq R] (f : IsrFile R X k) (s : ContextRun R X k) (x : X)
    (r : Isr) : ContextRun R X k :=
  let m := f.interrupt s.machine x r
  { s with
    machine := m
    saved := Function.update s.saved s.thread
      (⟨f.passed m 0, f.restore, s.machine.regs, x⟩ :: s.saved s.thread) }

/-- Code of any kind runs, which is also the code of the main functions. It writes over nothing
that is saved. An interrupt may come after any instruction. When a main function returns a stack
pointer, its routine goes on with what is saved there, and what was saved on that stack later is
lost. A new thread starts at the top of its stack, and a dead one is forgotten. -/
inductive ContextStep [DecidableEq R] (f : IsrFile R X k) (stack : Nat → Region k) :
    ContextRun R X k → ContextRun R X k → Prop where
  | run (s : ContextRun R X k) (m : Machine R k) : s.InCode f →
      (∀ t, ∀ v ∈ s.saved t, ∀ i < f.extent v,
        m.mem (v.stack + BitVec.ofNat _ i) = s.machine.mem (v.stack + BitVec.ofNat _ i)) →
      f.OnStack (stack s.thread) (s.saved s.thread) m 0 →
      ContextStep f stack s { s with machine := m }
  | interrupt (s : ContextRun R X k) (x : X) (r : Isr) :
      f.OnStack (stack s.thread) (s.saved s.thread) s.machine f.room →
      ContextStep f stack s (s.interrupt f x r)
  | resume (s : ContextRun R X k) (t : Nat) : s.InCode f → s.saved t = lost ++ v :: rest →
      v.left = f.restore → s.machine.regs f.result = v.stack → v.left = instr :: left →
      ContextStep f stack s
        ⟨s.machine.step f.sp instr, t,
          Function.update s.saved t ({ v with left := left } :: rest)⟩
  | restore (s : ContextRun R X k) : s.saved s.thread = v :: rest → v.left ≠ f.restore →
      v.left = instr :: left →
      ContextStep f stack s
        { s with
          machine := s.machine.step f.sp instr
          saved := Function.update s.saved s.thread
            ({ v with stack := (s.machine.step f.sp instr).regs f.sp, left := left } :: rest) }
  | iret (s : ContextRun R X k) : s.saved s.thread = v :: rest → v.left = [] →
      ContextStep f stack s
        { s with
          machine := (f.iret s.machine).1
          saved := Function.update s.saved s.thread rest }
  | start (s : ContextRun R X k) (t : Nat) (m : Machine R k) : s.InCode f → s.saved t = [] →
      m.mem = s.machine.mem → m.regs f.sp = (stack t).place (stack t).size →
      ContextStep f stack s { s with machine := m, thread := t }
  | forget (s : ContextRun R X k) (t : Nat) : t ≠ s.thread →
      ContextStep f stack s { s with saved := Function.update s.saved t [] }

theorem ContextRun.inCode_interrupt [DecidableEq R] (f : IsrFile R X k) (s : ContextRun R X k)
    (x : X) (r : Isr) : (s.interrupt f x r).InCode f := by
  intro v hv
  simp only [interrupt, Function.update_self, List.head?_cons, Option.mem_some_iff] at hv
  rw [← hv]

/-- The machine runs on the stack of its first thread, and nothing is saved. -/
def ContextRun.Start (f : IsrFile R X k) (stack : Nat → Region k) (s : ContextRun R X k) : Prop :=
  (∀ t, s.saved t = []) ∧ f.OnStack (stack s.thread) [] s.machine 0

/-- A stack pointer tells what is meant of all that is saved, every `iret` gives back what its
interrupt took, and a system call passes its request and its arguments. -/
structure ContextRun.Restores [DecidableEq R] (f : IsrFile R X k) (stack : Nat → Region k)
    (s : ContextRun R X k) : Prop where
  unique : ∀ t t', ∀ v ∈ s.saved t, ∀ v' ∈ s.saved t', v.stack = v'.stack → t = t' ∧ v = v'
  restores : ∀ v rest, s.saved s.thread = v :: rest → v.left = [] →
    f.iret s.machine = (⟨v.regs, s.machine.mem⟩, v.cpu)
  passes : f.OnStack (stack s.thread) (s.saved s.thread) s.machine f.room →
    ∀ x (i : Fin 4), f.passed (f.interrupt s.machine x .isrSyscall) i.succ =
      s.machine.regs (f.callRegs i)

namespace IsrFile

/-- What a routine does between saving the registers and calling its main function. -/
structure Calls (f : IsrFile R X k) (r : Isr) (g : Region k) (o : Nat) (m m' : Machine R k) :
    Prop where
  stack : f.passed m' 0 = m.regs f.sp
  call : r = .isrSyscall → ∀ i : Fin 4, f.passed m' i.succ = m.regs (f.callRegs i)
  writes : g.WritesIn (o - k * 5) o m.mem m'.mem
  sp : ∃ o', o - k * 5 ≤ o' ∧ o' ≤ o ∧ m'.regs f.sp = g.place o'

/-- What the proofs need of an architecture: how much the CPU aligns the stack by, what it pushes,
and what the routines consist of. -/
structure Laws [DecidableEq R] (f : IsrFile R X k) where
  parts : f.toIsrCode.Parts
  slack : Word k → Nat
  pushed : Word k → X → List (Word k)
  pass : Isr → List (Instr R k)
  pops : List (Instr R k)
  size_pos : 0 < k
  slack_le : ∀ sp, slack sp ≤ 16
  length_pushed : ∀ sp x, (pushed sp x).length = f.frameWords
  frameWords_pos : 0 < f.frameWords
  enter_eq : ∀ m x, f.enter m x =
    (m.set f.sp (m.regs f.sp - BitVec.ofNat _ (slack (m.regs f.sp)))).pushAll f.sp
      (pushed (m.regs f.sp) x)
  iret_eq : ∀ (m : Machine R k) sp x,
    m.mem.words (m.regs f.sp) f.frameWords = (pushed sp x).reverse →
    m.regs f.sp + BitVec.ofNat _ (k * f.frameWords + slack sp) = sp →
    f.iret m = (m.set f.sp sp, x)
  routine_eq : ∀ r, f.routine r = parts.save ++ pass r
  calls : ∀ r g o (m : Machine R k), m.regs f.sp = g.place o → k * 5 ≤ o → o ≤ g.size →
    f.Calls r g o m (m.exec f.sp (pass r))
  callRegs_ne : ∀ i, f.callRegs i ≠ f.sp
  restore_eq : f.restore = .mov f.sp f.result :: pops
  step_pops : ∀ instr ∈ pops, ∀ m : Machine R k, m.step f.sp instr = m.popAll f.sp instr.pops
  pops_eq : pops.flatMap Instr.pops = f.general.reverse

end IsrFile

namespace Amd64

/-- The registers when the arguments of a system call have been popped. -/
def callValue (m : Machine Reg 8) : Reg → Word 8
  | .r8 => m.regs .rdx
  | .rcx => m.regs .rcx
  | .rdx => m.regs .rbx
  | _ => m.regs .rax

/-- The arguments of a system call change registers by way of the stack. -/
def exchange : List (Instr Reg 8) :=
  [Reg.rax, .rbx, .rcx, .rdx].map .push ++ [Reg.r8, .rcx, .rdx, .rsi].map .pop

theorem exec_exchange (m : Machine Reg 8) : m.exec .rsp exchange =
    (m.pushAll .rsp ([.rax, .rbx, .rcx, .rdx].map m.regs)).popAll .rsp [.r8, .rcx, .rdx, .rsi] := by
  rw [exchange, Machine.exec_append, Machine.exec_push (by decide), Machine.exec_pop (by decide)]

theorem exchange_value (m : Machine Reg 8) (r : Reg) (hr : r ∈ [Reg.r8, .rcx, .rdx, .rsi]) :
    (m.exec .rsp exchange).regs r = callValue m r := by
  have hlen : 8 * (([Reg.rax, .rbx, .rcx, .rdx].map m.regs).length + 0) ≤ 2 ^ (8 * 8) := by
    rw [List.length_map]
    decide
  have hne : r ≠ .rsp := by
    rintro rfl
    revert hr
    decide
  have hwords := Machine.pushAll_words .rsp hlen m
  rw [exec_exchange, Machine.popAll_other (f := callValue m) hwords hne, if_pos hr]

theorem exchange_sp (m : Machine Reg 8) : (m.exec .rsp exchange).regs .rsp = m.regs .rsp := by
  rw [exec_exchange, Machine.popAll_sp, Machine.pushAll_sp]
  exact BitVec.sub_add_cancel ..

theorem exchange_writes {m : Machine Reg 8} {g : Region 8} (hsp : m.regs .rsp = g.place o)
    (hle : 8 * 5 ≤ o) (ho : o ≤ g.size) :
    g.WritesIn (o - 8 * 5) o m.mem (m.exec .rsp exchange).mem := by
  have hlen : 8 * ([Reg.rax, .rbx, .rcx, .rdx].map m.regs).length ≤ 8 * 5 := by
    rw [List.length_map]
    decide
  rw [exec_exchange, Machine.popAll_mem]
  exact (Machine.pushAll_writes hsp (hlen.trans hle) ho).mono (Nat.sub_le_sub_left hlen o)
    (Nat.le_refl o)

theorem passed_stack (start : Word 8) (m : Machine Reg 8) (v : Word 8) :
    (file start).passed (m.set .rdi v) 0 = v := Machine.set_same m .rdi v

theorem passed_call (start : Word 8) (m : Machine Reg 8) (v : Word 8) (i : Fin 4) :
    (file start).passed (m.set .rdi v) i.succ = m.regs ([.rsi, .rdx, .rcx, .r8].get i) := by
  have hne : ∀ i : Fin 4, [Reg.rsi, .rdx, .rcx, .r8].get i ≠ .rdi := by decide
  exact Machine.set_other m (hne i) v

theorem calls_syscall (start : Word 8) {m : Machine Reg 8} {g : Region 8}
    (hsp : m.regs .rsp = g.place o) (hle : 8 * 5 ≤ o) (ho : o ≤ g.size) :
    (file start).Calls .isrSyscall g o m (m.exec .rsp ([.cld] ++ exchange ++ [.mov .rdi .rsp])) := by
  have hexec : m.exec .rsp ([.cld] ++ exchange ++ [.mov .rdi .rsp]) =
      (m.exec .rsp exchange).set .rdi (m.regs .rsp) := by
    rw [Machine.exec_append, Machine.exec_append, ← exchange_sp]
    rfl
  have hwrites := exchange_writes hsp hle ho
  have hback := (exchange_sp m).trans hsp
  have hvalue := exchange_value m
  rw [hexec]
  generalize m.exec .rsp exchange = m' at hwrites hback hvalue
  refine ⟨passed_stack start m' _, fun _ i => ?_, hwrites, o, Nat.sub_le .., Nat.le_refl o, ?_⟩
  · rw [passed_call]
    fin_cases i
    · exact hvalue .rsi (by decide)
    · exact hvalue .rdx (by decide)
    · exact hvalue .rcx (by decide)
    · exact hvalue .r8 (by decide)
  · exact (Machine.set_other m' (show Reg.rsp ≠ .rdi by decide) _).trans hback

def laws (start : Word 8) : (file start).Laws where
  parts := parts start
  slack sp := (sp % 16).toNat
  pushed sp x := [x.ss, sp, x.rflags, x.cs, x.rip]
  pass
    | .isrSyscall => [.cld] ++ exchange ++ [.mov .rdi .rsp]
    | _ => [.cld, .mov .rdi .rsp]
  pops := popRegs
  size_pos := by decide
  slack_le sp := by
    rw [BitVec.toNat_umod]
    exact (Nat.mod_lt _ (by decide)).le
  length_pushed _ _ := rfl
  frameWords_pos := Nat.succ_pos _
  enter_eq m x := by
    rw [BitVec.ofNat_toNat, BitVec.setWidth_eq]
    rfl
  iret_eq m sp x hwords _ := by
    have hload : ∀ i v, ([x.rip, x.cs, x.rflags, sp, x.ss] : List (Word 8))[i]? = some v →
        m.word .rsp i = v := fun i v h => Bytes.load_of_words (n := 5) (hwords ▸ h)
    show iretq m = _
    rw [iretq, hload 0 _ rfl, hload 1 _ rfl, hload 2 _ rfl, hload 3 _ rfl, hload 4 _ rfl]
    rfl
  routine_eq r := by cases r <;> rfl
  calls r g o m hsp hle ho := by
    cases r with
    | isrSyscall => exact calls_syscall start hsp hle ho
    | _ => exact ⟨rfl, nofun, fun _ _ => rfl, o, Nat.sub_le .., Nat.le_refl o, hsp⟩
  callRegs_ne := (by decide : ∀ i : Fin 4, [Reg.rax, .rbx, .rcx, .rdx].get i ≠ .rsp)
  restore_eq := rfl
  step_pops := by
    intro instr hinstr m
    obtain ⟨r, hr, rfl⟩ := List.mem_map.1 (show instr ∈ general.reverse.map .pop from hinstr)
    have hne : r ≠ .rsp := fun he => rsp_not_mem (he ▸ List.mem_reverse.1 hr)
    exact (if_neg hne).symm
  pops_eq := rfl

end Amd64

namespace I386

/-- The registers of a system call, in the order in which they are pushed. -/
def callPushes : List Reg := [.edx, .ecx, .ebx, .eax]

theorem exec_call (m : Machine Reg 4) :
    m.exec .esp ([.cld] ++ callPushes.map .push ++ [.mov .eax .esp, .add .eax 16, .push .eax]) =
      (m.pushAll .esp (callPushes.map m.regs ++ [m.regs .esp])).set .eax (m.regs .esp) := by
  have hsp : (m.pushAll .esp (callPushes.map m.regs)).regs .esp + 16 = m.regs .esp := by
    rw [Machine.pushAll_sp, List.length_map]
    exact BitVec.sub_add_cancel ..
  have hfour : m.exec .esp ([.cld] ++ callPushes.map .push) =
      m.pushAll .esp (callPushes.map m.regs) := Machine.exec_push (by decide) m
  have hlast : m.pushAll .esp (callPushes.map m.regs ++ [m.regs .esp]) =
      (m.pushAll .esp (callPushes.map m.regs)).push .esp (m.regs .esp) := List.foldl_append
  rw [Machine.exec_append, hfour, hlast]
  generalize m.pushAll .esp (callPushes.map m.regs) = m' at hsp
  have hne : Reg.eax ≠ .esp := by decide
  simp only [Machine.exec, List.foldl_cons, List.foldl_nil, Machine.step, Machine.set_same,
    Machine.set_set, Machine.push_set hne, hsp]

/-- Pushing at most five words, the last of which is the stack pointer. -/
theorem calls_pushAll (vals : List (Word 4)) {m : Machine Reg 4} (m' : Machine Reg 4) {g : Region 4}
    (hsp : m.regs .esp = g.place o) (hle : 4 * 5 ≤ o) (ho : o ≤ g.size) (hlen : vals.length ≤ 4)
    (hmem : m'.mem = (m.pushAll .esp (vals ++ [m.regs .esp])).mem)
    (hregs : m'.regs .esp = (m.pushAll .esp (vals ++ [m.regs .esp])).regs .esp) :
    m'.word .esp 0 = m.regs .esp ∧
      (∀ i v, vals.reverse[i]? = some v → m'.word .esp (i + 1) = v) ∧
      g.WritesIn (o - 4 * 5) o m.mem m'.mem ∧
      ∃ o', o - 4 * 5 ≤ o' ∧ o' ≤ o ∧ m'.regs .esp = g.place o' := by
  have hlen' : (vals ++ [m.regs .esp]).length ≤ 5 := by
    rw [List.length_append]
    exact Nat.succ_le_succ hlen
  have hwords : 4 * (vals ++ [m.regs .esp]).length ≤ 4 * 5 := Nat.mul_le_mul_left 4 hlen'
  have hword : ∀ i, m'.word .esp i = (m.pushAll .esp (vals ++ [m.regs .esp])).word .esp i := by
    intro i
    rw [Machine.word, hmem, hregs, Machine.word]
  have hrev : (vals ++ [m.regs .esp]).reverse = m.regs .esp :: vals.reverse :=
    List.reverse_append ..
  have hsmall : 4 * (vals ++ [m.regs .esp]).length ≤ 2 ^ (8 * 4) := hwords.trans (by decide)
  refine ⟨?_, fun i v hv => ?_, ?_, o - 4 * (vals ++ [m.regs .esp]).length, ?_, Nat.sub_le .., ?_⟩
  · rw [hword]
    exact Machine.word_pushAll hsmall (by rw [hrev]; rfl)
  · rw [hword]
    exact Machine.word_pushAll hsmall (by rw [hrev]; exact hv)
  · rw [hmem]
    exact (Machine.pushAll_writes hsp (hwords.trans hle) ho).mono (Nat.sub_le_sub_left hwords o)
      (Nat.le_refl o)
  · exact Nat.sub_le_sub_left hwords o
  · rw [hregs, Machine.pushAll_place hsp (hwords.trans hle)]

def laws (start : Word 4) : (file start).Laws where
  parts := parts start
  slack _ := 0
  pushed _ x := [x.eflags, x.cs, x.eip]
  pass
    | .isrSyscall => [.cld] ++ callPushes.map .push ++ [.mov .eax .esp, .add .eax 16, .push .eax]
    | _ => [.cld, .push .esp]
  pops := [.popAll general.reverse]
  size_pos := by decide
  slack_le _ := Nat.zero_le _
  length_pushed _ _ := rfl
  frameWords_pos := Nat.succ_pos _
  enter_eq m x := by
    have hsame : m.set .esp (m.regs .esp - BitVec.ofNat _ 0) = m := by
      rw [BitVec.sub_zero, Machine.set, Function.update_eq_self]
    exact congrArg (Machine.pushAll .esp · [x.eflags, x.cs, x.eip]) hsame.symm
  iret_eq m sp x hwords hsp := by
    have hload : ∀ i v, ([x.eip, x.cs, x.eflags] : List (Word 4))[i]? = some v →
        m.word .esp i = v := fun i v h => Bytes.load_of_words (n := 3) (hwords ▸ h)
    show iret m = _
    rw [iret, hload 0 _ rfl, hload 1 _ rfl, hload 2 _ rfl, ← hsp]
    rfl
  routine_eq r := by cases r <;> rfl
  calls r g o m hsp hle ho := by
    cases r with
    | isrSyscall =>
      have hne : Reg.esp ≠ .eax := by decide
      obtain ⟨hstack, hcall, hwrites, hback⟩ := calls_pushAll (callPushes.map m.regs)
        ((m.pushAll .esp (callPushes.map m.regs ++ [m.regs .esp])).set .eax (m.regs .esp)) hsp hle
        ho (Nat.le_refl 4) rfl (Machine.set_other _ hne _)
      show (file start).Calls _ g o m (m.exec .esp _)
      rw [exec_call]
      refine ⟨hstack, fun _ i => hcall i _ ?_, hwrites, hback⟩
      fin_cases i <;> rfl
    | _ =>
      obtain ⟨hstack, -, hwrites, hback⟩ := calls_pushAll [] (m.exec .esp [.cld, .push .esp]) hsp hle
        ho (Nat.zero_le 4) rfl rfl
      exact ⟨hstack, nofun, hwrites, hback⟩
  callRegs_ne := (by decide : ∀ i : Fin 4, [Reg.eax, .ebx, .ecx, .edx].get i ≠ .esp)
  restore_eq := rfl
  step_pops := by
    intro instr hinstr m
    rw [List.mem_singleton.1 hinstr]
    rfl
  pops_eq := rfl

end I386

namespace IsrFile

/-- The registers of code that was stopped while it restored. -/
def Above (f : IsrFile R X k) (v : Saved R X k) (regs : R → Word k) : Prop :=
  regs f.sp = v.stack ∧ ∀ r, r ≠ f.sp → r ∉ v.left.flatMap Instr.pops → regs r = v.regs r

/-- Code that was stopped while it restored has what it restored, in the machine or in what the next
interrupt saved. -/
def Chained (f : IsrFile R X k) :
    (regs : Option (R → Word k)) → (saved : List (Saved R X k)) → Prop
  | _, [] => True
  | regs, v :: saved =>
    (v.left = f.restore ∨ ∃ regs', regs = some regs' ∧ Above f v regs') ∧
      Chained f (some v.regs) saved

variable {saved lost rest : List (Saved R X k)} {regs regs' : Option (R → Word k)}

theorem Chained.inCode (h : Chained f regs saved) (hcode : ∀ v ∈ saved.head?, v.left = f.restore) :
    Chained f regs' saved := by
  cases saved with
  | nil => exact trivial
  | cons v saved => exact ⟨.inl (hcode v rfl), h.2⟩

theorem Chained.of_append (h : Chained f regs (lost ++ v :: rest)) :
    Chained f (some v.regs) rest := by
  induction lost generalizing regs with
  | nil => exact h.2
  | cons _ _ ih => exact ih h.2

end IsrFile

namespace IsrFile.Laws

variable [DecidableEq R]

/-- What the stack still has is what the interrupted code had. -/
structure Keeps (l : f.Laws) (mem : Bytes k) (v : Saved R X k) : Prop where
  suffix : v.left <:+ f.restore
  words : ∃ regs : R → Word k, (∀ r, r ≠ f.sp → regs r = v.regs r) ∧
    mem.words v.stack ((v.left.flatMap Instr.pops).length + f.frameWords) =
      (v.left.flatMap Instr.pops).map regs ++ (l.pushed (v.regs f.sp) v.cpu).reverse
  sp : v.stack + BitVec.ofNat _ (f.extent v + l.slack (v.regs f.sp)) = v.regs f.sp

variable {l : f.Laws} {m m' : Machine R k} {mem mem' : Bytes k} {v : Saved R X k} {g : Region k}

theorem Keeps.congr (h : l.Keeps mem v) (hmem : ∀ i < f.extent v,
    mem' (v.stack + BitVec.ofNat _ i) = mem (v.stack + BitVec.ofNat _ i)) : l.Keeps mem' v := by
  obtain ⟨regs, hregs, hwords⟩ := h.words
  exact ⟨h.suffix, ⟨regs, hregs, (Bytes.words_congr hmem).trans hwords⟩, h.sp⟩

theorem restore_pops (l : f.Laws) : f.restore.flatMap Instr.pops = f.general.reverse := by
  rw [l.restore_eq, List.flatMap_cons, l.pops_eq]
  rfl

theorem extent_restore (l : f.Laws) (h : v.left = f.restore) :
    f.extent v = k * (f.general.length + f.frameWords) := by
  rw [extent, h, l.restore_pops, List.length_reverse]

theorem extent_pos (l : f.Laws) (v : Saved R X k) : 0 < f.extent v :=
  Nat.mul_pos l.size_pos (Nat.add_pos_right _ l.frameWords_pos)

theorem ne_restore (l : f.Laws) (hleft : v.left = []) : v.left ≠ f.restore := by
  rw [hleft, l.restore_eq]
  exact (List.cons_ne_nil _ _).symm

theorem general_pos (l : f.Laws) : 0 < f.general.length :=
  List.length_pos_of_mem (l.parts.all _ (l.callRegs_ne 0))

/-- The machine after the CPU has pushed its frame. -/
theorem enter_spec (l : f.Laws) (hsp : m.regs f.sp = g.place o) (hroom : f.room ≤ o)
    (ho : o ≤ g.size) (x : X) :
    let d := l.slack (m.regs f.sp)
    (f.enter m x).regs f.sp = g.place (o - d - k * f.frameWords) ∧
      (∀ r, r ≠ f.sp → (f.enter m x).regs r = m.regs r) ∧
      (f.enter m x).mem.words ((f.enter m x).regs f.sp) f.frameWords =
        (l.pushed (m.regs f.sp) x).reverse ∧
      g.WritesIn 0 o m.mem (f.enter m x).mem := by
  intro d
  have hd : d ≤ 16 := l.slack_le _
  have hlen := l.length_pushed (m.regs f.sp) x
  have hsize := g.hsize
  have hfit : 16 + k * f.frameWords ≤ o := by
    rw [room, Nat.mul_add] at hroom
    omega
  have hset : (m.set f.sp (m.regs f.sp - BitVec.ofNat _ d)).regs f.sp = g.place (o - d) := by
    rw [Machine.set_same, hsp, g.place_sub (by omega)]
  have hle : k * (l.pushed (m.regs f.sp) x).length ≤ o - d := by
    rw [hlen]
    omega
  have hbound : k * ((l.pushed (m.regs f.sp) x).length + 0) ≤ 2 ^ (8 * k) := by
    rw [Nat.add_zero]
    omega
  have hwords := Machine.pushAll_words f.sp hbound (m.set f.sp (m.regs f.sp - BitVec.ofNat _ d))
  rw [Nat.add_zero, Bytes.words, List.append_nil, hlen] at hwords
  rw [l.enter_eq]
  refine ⟨?_, fun r hr => ?_, hwords, ?_⟩
  · rw [Machine.pushAll_place hset hle, hlen]
  · rw [Machine.pushAll_other _ hr, Machine.set_other _ hr]
  · exact (Machine.pushAll_writes hset hle (by omega)).mono (Nat.zero_le _) (Nat.sub_le ..)

/-- The machine after a routine has pushed the registers. -/
theorem save_spec (l : f.Laws) (hsp : m.regs f.sp = g.place o)
    (hroom : k * (f.general.length + f.frameWords) ≤ g.size) (hle : k * f.general.length ≤ o)
    (ho : o ≤ g.size) :
    (m.exec f.sp l.parts.save).regs f.sp = g.place (o - k * f.general.length) ∧
      (∀ r, r ≠ f.sp → (m.exec f.sp l.parts.save).regs r = m.regs r) ∧
      (m.exec f.sp l.parts.save).mem.words ((m.exec f.sp l.parts.save).regs f.sp)
        (f.general.length + f.frameWords) =
          (f.general.map m.regs).reverse ++ m.mem.words (m.regs f.sp) f.frameWords ∧
      g.WritesIn 0 o m.mem (m.exec f.sp l.parts.save).mem := by
  have hlen : (f.general.map m.regs).length = f.general.length := List.length_map _
  have hbound : k * ((f.general.map m.regs).length + f.frameWords) ≤ 2 ^ (8 * k) :=
    hlen ▸ hroom.trans g.hsize
  have hwords := Machine.pushAll_words f.sp hbound m
  have hplace := Machine.pushAll_place hsp (hlen.symm ▸ hle)
  have hwrites := Machine.pushAll_writes hsp (hlen.symm ▸ hle) ho
  rw [hlen] at hwords hplace
  rw [l.parts.saves]
  exact ⟨hplace, fun r hr => Machine.pushAll_other m hr _, hwords,
    hwrites.mono (Nat.zero_le _) (Nat.le_refl o)⟩

/-- An interrupt saves what was interrupted, at the stack pointer that the main function gets. -/
theorem interrupt_spec (l : f.Laws) (hsp : m.regs f.sp = g.place o) (hroom : f.room ≤ o)
    (ho : o ≤ g.size) (x : X) (r : Isr) :
    let m' := f.interrupt m x r
    let v : Saved R X k := ⟨f.passed m' 0, f.restore, m.regs, x⟩
    l.Keeps m'.mem v ∧ g.offset v.stack + (f.extent v + l.slack (v.regs f.sp)) = o ∧
      g.WritesIn 0 o m.mem m'.mem ∧ (∃ o', o' ≤ g.offset v.stack ∧ m'.regs f.sp = g.place o') ∧
      (r = .isrSyscall → ∀ i : Fin 4, f.passed m' i.succ = m.regs (f.callRegs i)) := by
  intro m' v
  have hd : l.slack (m.regs f.sp) ≤ 16 := l.slack_le _
  have hsize := g.hsize
  have hextent : f.extent v = k * (f.general.length + f.frameWords) := l.extent_restore rfl
  have hsplit := Nat.mul_add k f.general.length f.frameWords
  have hpos := Nat.mul_pos l.size_pos l.general_pos
  rw [room] at hroom
  obtain ⟨henter, hregs, hframe, hwrites⟩ := l.enter_spec hsp hroom ho x
  obtain ⟨hsaved, hother, hwords, hwrites'⟩ :=
    l.save_spec henter (by omega) (by omega) (by omega)
  have hexec : m' = ((f.enter m x).exec f.sp l.parts.save).exec f.sp (l.pass r) := by
    show (f.enter m x).exec f.sp (f.routine r) = _
    rw [l.routine_eq, Machine.exec_append]
  generalize (f.enter m x).exec f.sp l.parts.save = m₂ at *
  generalize hp : o - l.slack (m.regs f.sp) - k * f.frameWords - k * f.general.length = p at hsaved
  have hcalls := l.calls r g p m₂ hsaved (by omega) (by omega)
  rw [← hexec] at hcalls
  have hstack : v.stack = g.place p := hcalls.stack.trans hsaved
  have hoffset : g.offset v.stack = p := by
    rw [hstack, g.offset_place (by omega)]
  have hsum : p + (f.extent v + l.slack (m.regs f.sp)) = o := by
    rw [hextent]
    omega
  have hsp' : v.stack + BitVec.ofNat _ (f.extent v + l.slack (v.regs f.sp)) = v.regs f.sp := by
    show _ + BitVec.ofNat _ (f.extent v + l.slack (m.regs f.sp)) = m.regs f.sp
    rw [hstack, Region.place, BitVec.add_assoc, ← BitVec.ofNat_add, hsum]
    exact hsp.symm
  refine ⟨⟨List.suffix_rfl, ⟨(f.enter m x).regs, hregs, ?_⟩, hsp'⟩, ?_, ?_, ?_, fun hr i => ?_⟩
  · show m'.mem.words v.stack ((f.restore.flatMap Instr.pops).length + f.frameWords) =
      (f.restore.flatMap Instr.pops).map _ ++ (l.pushed (m.regs f.sp) x).reverse
    rw [l.restore_pops, List.length_reverse, List.map_reverse, ← hframe, ← hwords, hsaved, hstack]
    refine Bytes.words_congr fun i hi => hcalls.writes _ (.inr ?_)
    rw [← hstack, Region.offset_add (by omega), hoffset]
    exact Nat.le_add_right ..
  · show g.offset v.stack + (f.extent v + l.slack (m.regs f.sp)) = o
    rw [hoffset, hsum]
  · refine hwrites.trans (.trans (hwrites'.mono (Nat.zero_le _) ?_)
      (hcalls.writes.mono (Nat.zero_le _) ?_))
    · exact (Nat.sub_le ..).trans (Nat.sub_le ..)
    · omega
  · obtain ⟨o', -, hle', hreg⟩ := hcalls.sp
    exact ⟨o', hle'.trans hoffset.ge, hreg⟩
  · rw [hcalls.call hr i, hother _ (l.callRegs_ne i), hregs _ (l.callRegs_ne i)]

/-- The first of the instructions that restore. -/
theorem Keeps.begin (h : l.Keeps mem v) (hleft : v.left = f.restore)
    (hnext : v.left = instr :: left) (m : Machine R k) (hres : m.regs f.result = v.stack) :
    m.step f.sp instr = m.set f.sp v.stack ∧ left = l.pops ∧
      f.extent { v with left := left } = f.extent v ∧ l.Keeps mem { v with left := left } := by
  obtain ⟨rfl, rfl⟩ := List.cons.inj (hnext.symm.trans (hleft.trans l.restore_eq))
  have hpops : v.left.flatMap Instr.pops = l.pops.flatMap Instr.pops := by
    rw [hleft, l.restore_eq]
    rfl
  have hextent : f.extent { v with left := l.pops } = f.extent v := by
    rw [extent, extent, hpops]
  refine ⟨?_, rfl, hextent, ?_, ?_, ?_⟩
  · rw [← hres]
    rfl
  · rw [l.restore_eq]
    exact List.suffix_cons ..
  · obtain ⟨regs, hregs, hwords⟩ := h.words
    rw [hpops] at hwords
    exact ⟨regs, hregs, hwords⟩
  · rw [hextent]
    exact h.sp

/-- Each of the next ones pops what is on top of the stack. -/
theorem Keeps.next (h : l.Keeps m.mem v) (hne : v.left ≠ f.restore)
    (hnext : v.left = instr :: left) (habove : Above f v m.regs) :
    let v' : Saved R X k := { v with stack := (m.step f.sp instr).regs f.sp, left := left }
    (m.step f.sp instr).mem = m.mem ∧ v'.stack = v.stack + BitVec.ofNat _ (k * instr.pops.length) ∧
      f.extent v = k * instr.pops.length + f.extent v' ∧ l.Keeps m.mem v' ∧
      Above f v' (m.step f.sp instr).regs := by
  intro v'
  have hpops : v.left <:+ l.pops := by
    have hsuffix := h.suffix
    rw [l.restore_eq, List.suffix_cons_iff, ← l.restore_eq] at hsuffix
    exact hsuffix.resolve_left hne
  rw [hnext] at hpops
  have hstep := l.step_pops instr (hpops.subset List.mem_cons_self) m
  have hflat : v.left.flatMap Instr.pops = instr.pops ++ left.flatMap Instr.pops := by
    rw [hnext, List.flatMap_cons]
  obtain ⟨regs, hregs, hwords⟩ := h.words
  rw [hflat, List.length_append, Nat.add_assoc, Bytes.words_append, List.map_append,
    List.append_assoc] at hwords
  have hlen : (m.mem.words v.stack instr.pops.length).length = (instr.pops.map regs).length := by
    rw [Bytes.length_words, List.length_map]
  obtain ⟨htop, hrest⟩ := List.append_inj hwords hlen
  have hstack : v'.stack = v.stack + BitVec.ofNat _ (k * instr.pops.length) := by
    show (m.step f.sp instr).regs f.sp = _
    rw [hstep, Machine.popAll_sp, habove.1]
  have hextent : f.extent v = k * instr.pops.length + f.extent v' := by
    rw [extent, hflat, List.length_append, Nat.add_assoc, Nat.mul_add]
    rfl
  refine ⟨?_, hstack, hextent, ⟨?_, ⟨regs, hregs, ?_⟩, ?_⟩, rfl, fun r hr hmem => ?_⟩
  · rw [hstep, Machine.popAll_mem]
  · exact ((List.suffix_cons instr left).trans hpops).trans (l.restore_eq ▸ List.suffix_cons ..)
  · rw [hstack]
    exact hrest
  · have hsp := h.sp
    rw [hextent, Nat.add_assoc, BitVec.ofNat_add, ← BitVec.add_assoc, ← hstack] at hsp
    exact hsp
  · have hwords' : m.mem.words (m.regs f.sp) instr.pops.length = instr.pops.map regs := by
      rw [habove.1]
      exact htop
    rw [hstep, Machine.popAll_other hwords' hr]
    split_ifs with hin
    · exact hregs r hr
    · refine habove.2 r hr fun hin' => ?_
      rw [hflat, List.mem_append] at hin'
      exact hin'.elim hin hmem

/-- When all is popped, `iret` gives back the rest. -/
theorem Keeps.iret (h : l.Keeps m.mem v) (hleft : v.left = []) (habove : Above f v m.regs) :
    f.iret m = (⟨v.regs, m.mem⟩, v.cpu) := by
  obtain ⟨regs, hregs, hwords⟩ := h.words
  have hsp := h.sp
  have hextent : f.extent v = k * f.frameWords := by
    rw [extent, hleft, List.flatMap_nil, List.length_nil, Nat.zero_add]
  rw [hleft, List.flatMap_nil, List.length_nil, Nat.zero_add, List.map_nil, List.nil_append,
    ← habove.1] at hwords
  rw [hextent, ← habove.1] at hsp
  rw [l.iret_eq m _ _ hwords hsp]
  refine congrArg (Prod.mk · v.cpu) ?_
  rw [Machine.set]
  congr 1
  funext r
  by_cases hr : r = f.sp
  · rw [hr, Function.update_self]
  · rw [Function.update_of_ne hr]
    refine habove.2 r hr ?_
    rw [hleft]
    exact List.not_mem_nil

/-- Where something saved lies, with all of the stack that the interrupt took. -/
def frame (l : f.Laws) (v : Saved R X k) : Word k × Nat :=
  (v.stack, f.extent v + l.slack (v.regs f.sp))

theorem stacks_eq (l : f.Laws) (saved : List (Saved R X k)) :
    (saved.map l.frame).map Prod.fst = saved.map Saved.stack := List.map_map ..

end IsrFile.Laws

namespace ContextRun

open IsrFile

variable [DecidableEq R] {l : f.Laws} {s s' : ContextRun R X k}

/-- The invariant of the runs. -/
structure Sound (l : f.Laws) (stack : Nat → Region k) (s : ContextRun R X k) : Prop where
  onStack : f.OnStack (stack s.thread) (s.saved s.thread) s.machine 0
  stacked : ∀ t, (stack t).Stacked ((s.saved t).map l.frame)
  keeps : ∀ t, ∀ v ∈ s.saved t, l.Keeps s.machine.mem v
  running : Chained f (some s.machine.regs) (s.saved s.thread)
  waiting : ∀ t, t ≠ s.thread → Chained f none (s.saved t)

namespace Sound

theorem limit_le (h : s.Sound l stack) (t : Nat) :
    (stack t).limit ((s.saved t).map Saved.stack) ≤ (stack t).size := by
  rw [← l.stacks_eq]
  exact (h.stacked t).limit_le

/-- Writing below what is saved on the stack of the running thread changes nothing that is saved. -/
theorem unchanged (h : s.Sound l stack) (hapart : ∀ t t', t ≠ t' → (stack t).Apart (stack t'))
    (hwrites : (stack s.thread).WritesIn 0 o s.machine.mem mem)
    (ho : o ≤ (stack s.thread).limit ((s.saved s.thread).map Saved.stack)) (t : Nat) :
    ∀ v ∈ s.saved t, ∀ i < f.extent v,
      mem (v.stack + BitVec.ofNat _ i) = s.machine.mem (v.stack + BitVec.ofNat _ i) := by
  intro v hv i hi
  obtain ⟨hlo, hhi⟩ := (h.stacked t).inside (List.mem_map_of_mem hv)
  rw [l.stacks_eq] at hlo
  have hi' : i < f.extent v + l.slack (v.regs f.sp) := Nat.lt_of_lt_of_le hi (Nat.le_add_right ..)
  by_cases ht : t = s.thread
  · subst ht
    exact hwrites.frame (ho.trans hlo) hhi hi'
  · exact hwrites.other (ho.trans (h.limit_le _)) (hapart _ _ ht) hhi hi'

theorem run (h : s.Sound l stack) (hcode : s.InCode f)
    (hmem : ∀ t, ∀ v ∈ s.saved t, ∀ i < f.extent v,
      m.mem (v.stack + BitVec.ofNat _ i) = s.machine.mem (v.stack + BitVec.ofNat _ i))
    (hm : f.OnStack (stack s.thread) (s.saved s.thread) m 0) :
    Sound l stack { s with machine := m } :=
  ⟨hm, h.stacked, fun t v hv => (h.keeps t v hv).congr (hmem t v hv), h.running.inCode hcode,
    h.waiting⟩

/-- The stack of one thread changes, which is then the running one. -/
theorem of_update {saved : Nat → List (Saved R X k)} (hon : f.OnStack (stack t) new m 0)
    (hstacked : (stack t).Stacked (new.map l.frame)) (hkeeps : ∀ v ∈ new, l.Keeps m.mem v)
    (hrunning : Chained f (some m.regs) new)
    (hother : ∀ t', t' ≠ t → (stack t').Stacked ((saved t').map l.frame) ∧
      (∀ v ∈ saved t', l.Keeps m.mem v) ∧ Chained f none (saved t')) :
    Sound l stack ⟨m, t, Function.update saved t new⟩ := by
  refine ⟨?_, fun t' => ?_, fun t' => ?_, ?_, fun t' ht => ?_⟩
  · dsimp only
    rwa [Function.update_self]
  · dsimp only
    by_cases ht : t' = t
    · rwa [ht, Function.update_self]
    · rw [Function.update_of_ne ht]
      exact (hother t' ht).1
  · dsimp only
    by_cases ht : t' = t
    · rwa [ht, Function.update_self]
    · rw [Function.update_of_ne ht]
      exact (hother t' ht).2.1
  · dsimp only
    rwa [Function.update_self]
  · dsimp only
    rw [Function.update_of_ne ht]
    exact (hother t' ht).2.2

theorem interrupt (h : s.Sound l stack) (hapart : ∀ t t', t ≠ t' → (stack t).Apart (stack t'))
    (hroom : f.OnStack (stack s.thread) (s.saved s.thread) s.machine f.room) (x : X) (r : Isr) :
    Sound l stack (s.interrupt f x r) := by
  obtain ⟨o, hroom, ho, hsp⟩ := hroom
  obtain ⟨hkeeps, hsum, hwrites, ⟨o', ho', hsp'⟩, -⟩ :=
    l.interrupt_spec hsp hroom (ho.trans (h.limit_le _)) x r
  have hkept := fun t v hv => (h.keeps t v hv).congr (h.unchanged hapart hwrites ho t v hv)
  refine of_update ⟨o', Nat.zero_le _, ho', hsp'⟩ ⟨?_, h.stacked _⟩
    (List.forall_mem_cons.2 ⟨hkeeps, hkept _⟩) ⟨.inl rfl, h.running⟩
    fun t ht => ⟨h.stacked t, hkept t, h.waiting t ht⟩
  rw [l.stacks_eq]
  exact hsum.trans_le ho

/-- The threads that do not run, when another one goes on. -/
theorem others (h : s.Sound l stack) (hcode : s.InCode f) (t : Nat) :
    Chained f none (s.saved t) := by
  by_cases ht : t = s.thread
  · rw [ht]
    exact h.running.inCode hcode
  · exact h.waiting t ht

theorem resume (h : s.Sound l stack) (hcode : s.InCode f) (hsaved : s.saved t = lost ++ v :: rest)
    (hleft : v.left = f.restore) (hres : s.machine.regs f.result = v.stack)
    (hnext : v.left = instr :: left) :
    Sound l stack ⟨s.machine.step f.sp instr, t,
      Function.update s.saved t ({ v with left := left } :: rest)⟩ := by
  have hstacked := h.stacked t
  have hkeeps := h.keeps t
  have hchained := h.others hcode t
  rw [hsaved] at hstacked hkeeps hchained
  rw [List.map_append] at hstacked
  replace hstacked := hstacked.of_append
  replace hkeeps := fun w hw => hkeeps w (List.mem_append_right lost hw)
  obtain ⟨hstep, rfl, hextent, hkeep⟩ :=
    (hkeeps v List.mem_cons_self).begin hleft hnext s.machine hres
  rw [hstep]
  have hplace : (s.machine.set f.sp v.stack).regs f.sp =
      (stack t).place ((stack t).offset v.stack) := by
    rw [Machine.set_same, Region.place_offset]
  refine of_update ⟨_, Nat.zero_le _, Nat.le_refl _, hplace⟩ ⟨?_, hstacked.2⟩
    (List.forall_mem_cons.2 ⟨hkeep, fun w hw => hkeeps w (List.mem_cons_of_mem v hw)⟩)
    ⟨.inr ⟨_, rfl, Machine.set_same .., fun r hr hmem => ?_⟩, hchained.of_append⟩
    fun t' ht => ⟨h.stacked t', h.keeps t', h.others hcode t'⟩
  · rw [hextent]
    exact hstacked.1
  · refine absurd ?_ hmem
    show r ∈ l.pops.flatMap Instr.pops
    rw [l.pops_eq, List.mem_reverse]
    exact l.parts.all r hr

theorem above (h : s.Sound l stack) (hsaved : s.saved s.thread = v :: rest)
    (hne : v.left ≠ f.restore) : Above f v s.machine.regs := by
  have hrunning := h.running
  rw [hsaved] at hrunning
  obtain ⟨_, hregs, habove⟩ := hrunning.1.resolve_left hne
  rwa [← Option.some.inj hregs] at habove

theorem restore (h : s.Sound l stack) (hsaved : s.saved s.thread = v :: rest)
    (hne : v.left ≠ f.restore) (hnext : v.left = instr :: left) :
    Sound l stack ⟨s.machine.step f.sp instr, s.thread, Function.update s.saved s.thread
      ({ v with stack := (s.machine.step f.sp instr).regs f.sp, left := left } :: rest)⟩ := by
  have habove := h.above hsaved hne
  have hstacked := h.stacked s.thread
  have hkeeps := h.keeps s.thread
  have hrunning := h.running
  rw [hsaved] at hstacked hkeeps hrunning
  obtain ⟨hmem, hstack, hextent, hkeep, habove'⟩ :=
    (hkeeps v List.mem_cons_self).next hne hnext habove
  generalize hv' : ({ v with stack := (s.machine.step f.sp instr).regs f.sp, left := left } :
    Saved R X k) = v' at hstack hextent hkeep habove'
  have hregs : v'.regs = v.regs := by rw [← hv']
  have hsum : (stack s.thread).offset v.stack + (f.extent v + l.slack (v.regs f.sp)) ≤
      (stack s.thread).limit ((rest.map l.frame).map Prod.fst) := hstacked.1
  have hoffset : (stack s.thread).offset v'.stack =
      (stack s.thread).offset v.stack + k * instr.pops.length := by
    rw [hstack]
    apply Region.offset_add
    have hsize := (stack s.thread).hsize
    have hlimit := hstacked.2.limit_le
    have hlt : (stack s.thread).offset v.stack < 2 ^ (8 * k) := BitVec.isLt _
    have hpos := l.extent_pos v'
    omega
  have hplace : (s.machine.step f.sp instr).regs f.sp =
      (stack s.thread).place ((stack s.thread).offset v'.stack) := by
    rw [Region.place_offset, habove'.1]
  refine of_update ⟨_, Nat.zero_le _, Nat.le_refl _, hplace⟩ ⟨?_, hstacked.2⟩
    (List.forall_mem_cons.2 ⟨?_, fun w hw => ?_⟩) ⟨.inr ⟨_, rfl, habove'⟩, ?_⟩
    fun t ht => ⟨h.stacked t, fun w hw => ?_, h.waiting t ht⟩
  · rw [hoffset, hregs]
    omega
  · rw [hmem]
    exact hkeep
  · rw [hmem]
    exact hkeeps w (List.mem_cons_of_mem v hw)
  · rw [hregs]
    exact hrunning.2
  · rw [hmem]
    exact h.keeps t w hw

theorem iret_eq (h : s.Sound l stack) (hsaved : s.saved s.thread = v :: rest)
    (hleft : v.left = []) : f.iret s.machine = (⟨v.regs, s.machine.mem⟩, v.cpu) :=
  (h.keeps s.thread v (hsaved ▸ List.mem_cons_self)).iret hleft
    (h.above hsaved (l.ne_restore hleft))

theorem iret (h : s.Sound l stack) (hsaved : s.saved s.thread = v :: rest) (hleft : v.left = []) :
    Sound l stack
      ⟨(f.iret s.machine).1, s.thread, Function.update s.saved s.thread rest⟩ := by
  rw [h.iret_eq hsaved hleft]
  have hstacked := h.stacked s.thread
  have hkeeps := h.keeps s.thread
  have hrunning := h.running
  rw [hsaved] at hstacked hkeeps hrunning
  have hle := hstacked.1
  rw [l.stacks_eq] at hle
  refine of_update ⟨_, Nat.zero_le _, hle, ?_⟩ hstacked.2
    (fun w hw => hkeeps w (List.mem_cons_of_mem v hw)) hrunning.2
    fun t ht => ⟨h.stacked t, h.keeps t, h.waiting t ht⟩
  show v.regs f.sp = _
  rw [Region.place, BitVec.ofNat_add, ← BitVec.add_assoc, ← Region.place, Region.place_offset]
  exact (hkeeps v List.mem_cons_self).sp.symm

theorem start (h : s.Sound l stack) (hcode : s.InCode f) (hsaved : s.saved t = [])
    (hmem : m.mem = s.machine.mem) (hsp : m.regs f.sp = (stack t).place (stack t).size) :
    Sound l stack { s with machine := m, thread := t } := by
  refine ⟨⟨_, Nat.zero_le _, ?_, hsp⟩, h.stacked, fun t' v hv => ?_, ?_, fun t' _ =>
    h.others hcode t'⟩
  · dsimp only
    rw [hsaved]
    exact Nat.le_refl _
  · dsimp only
    rw [hmem]
    exact h.keeps t' v hv
  · dsimp only
    rw [hsaved]
    exact trivial

theorem forget (h : s.Sound l stack) (ht : t ≠ s.thread) :
    Sound l stack { s with saved := Function.update s.saved t [] } := by
  have hsub : ∀ t', Function.update s.saved t [] t' = [] ∨
      Function.update s.saved t [] t' = s.saved t' := by
    intro t'
    by_cases he : t' = t
    · exact .inl (he ▸ Function.update_self ..)
    · exact .inr (Function.update_of_ne he ..)
  have hrun : Function.update s.saved t [] s.thread = s.saved s.thread :=
    Function.update_of_ne ht.symm ..
  refine ⟨?_, fun t' => ?_, fun t' => ?_, ?_, fun t' ht' => ?_⟩
  · dsimp only
    rw [hrun]
    exact h.onStack
  · rcases hsub t' with he | he <;> dsimp only <;> rw [he]
    · exact trivial
    · exact h.stacked t'
  · rcases hsub t' with he | he <;> dsimp only <;> rw [he]
    · exact List.forall_mem_nil _
    · exact h.keeps t'
  · dsimp only
    rw [hrun]
    exact h.running
  · rcases hsub t' with he | he <;> dsimp only <;> rw [he]
    · exact trivial
    · exact h.waiting t' ht'

theorem unique (h : s.Sound l stack) (hapart : ∀ t t', t ≠ t' → (stack t).Apart (stack t'))
    (hv : v ∈ s.saved t) (hv' : v' ∈ s.saved t') (he : v.stack = v'.stack) : t = t' ∧ v = v' := by
  have hpos := fun w : Saved R X k => Nat.add_pos_left (l.extent_pos w) (l.slack (w.regs f.sp))
  by_cases ht : t = t'
  · subst ht
    refine ⟨rfl, ?_⟩
    have hstacked := h.stacked t
    generalize s.saved t = saved at hv hv' hstacked
    induction saved with
    | nil => cases hv
    | cons w saved ih =>
      have hlt := fun u (hu : u ∈ saved) =>
        Nat.ne_of_lt (hstacked.lt (hpos w) (List.mem_map_of_mem hu))
      rcases List.mem_cons.1 hv with rfl | hmem <;> rcases List.mem_cons.1 hv' with rfl | hmem'
      · rfl
      · exact absurd (congrArg _ he) (hlt _ hmem')
      · exact absurd (congrArg _ he.symm) (hlt _ hmem)
      · exact ih hmem hmem' hstacked.2
  · obtain ⟨-, hin⟩ := (h.stacked t).inside (List.mem_map_of_mem hv)
    obtain ⟨-, hin'⟩ := (h.stacked t').inside (List.mem_map_of_mem hv')
    have hfar := hapart t t' ht v.stack (by have := hpos v; omega)
    rw [he] at hfar
    have hpos' := hpos v'
    omega

theorem step (h : s.Sound l stack) (hapart : ∀ t t', t ≠ t' → (stack t).Apart (stack t'))
    (hs : ContextStep f stack s s') : s'.Sound l stack := by
  cases hs with
  | run _ m hcode hmem hm => exact h.run hcode hmem hm
  | interrupt _ x r hroom => exact h.interrupt hapart hroom x r
  | resume _ t hcode hsaved hleft hres hnext => exact h.resume hcode hsaved hleft hres hnext
  | restore _ hsaved hne hnext => exact h.restore hsaved hne hnext
  | iret _ hsaved hleft => exact h.iret hsaved hleft
  | start _ t m hcode hsaved hmem hsp => exact h.start hcode hsaved hmem hsp
  | forget _ t ht => exact h.forget ht

end Sound

theorem sound_of_reachable (l : f.Laws) (hapart : ∀ t t', t ≠ t' → (stack t).Apart (stack t'))
    (hr : Reachable (Start f stack) (ContextStep f stack) s) : s.Sound l stack := by
  apply hr.invariant
  · intro s ⟨hnone, hon⟩
    refine ⟨?_, fun t => ?_, fun t v hv => ?_, ?_, fun t _ => ?_⟩
    · rw [hnone]
      exact hon
    · rw [hnone]
      exact trivial
    · rw [hnone] at hv
      cases hv
    · rw [hnone]
      exact trivial
    · rw [hnone]
      exact trivial
  · exact fun s s' h hs => h.step hapart hs

theorem restores_of_reachable (l : f.Laws) (hapart : ∀ t t', t ≠ t' → (stack t).Apart (stack t'))
    (hr : Reachable (Start f stack) (ContextStep f stack) s) : s.Restores f stack := by
  have h := sound_of_reachable l hapart hr
  refine ⟨fun t t' v hv v' hv' => h.unique hapart hv hv',
    fun v rest hsaved hleft => h.iret_eq hsaved hleft, fun ⟨o, hroom, ho, hsp⟩ x => ?_⟩
  obtain ⟨-, -, -, -, hcall⟩ :=
    l.interrupt_spec hsp hroom (ho.trans (h.limit_le _)) x .isrSyscall
  exact hcall rfl

end ContextRun

/-- On both architectures, in every run: whatever interrupts come, also while a routine restores,
and whatever thread the main functions go on with, each `iret` gives back the registers and the
frame that its interrupt took. -/
theorem isr_restores :
    (∀ start (stack : Nat → Region 8), (∀ t t', t ≠ t' → (stack t).Apart (stack t')) → ∀ s,
      Reachable (ContextRun.Start (Amd64.file start) stack)
        (ContextStep (Amd64.file start) stack) s → s.Restores (Amd64.file start) stack) ∧
    ∀ start (stack : Nat → Region 4), (∀ t t', t ≠ t' → (stack t).Apart (stack t')) → ∀ s,
      Reachable (ContextRun.Start (I386.file start) stack)
        (ContextStep (I386.file start) stack) s → s.Restores (I386.file start) stack :=
  ⟨fun start _ hapart _ hr => ContextRun.restores_of_reachable (Amd64.laws start) hapart hr,
    fun start _ hapart _ hr => ContextRun.restores_of_reachable (I386.laws start) hapart hr⟩

section runs

namespace ContextRun

variable [DecidableEq R] {s : ContextRun R X k}

/-- How many instructions there are before the `iret` of what was saved last on a stack. -/
def remaining (s : ContextRun R X k) (t : Nat) : Option Nat :=
  (s.saved t).head?.map fun v => v.left.length

/-- A main function returns the stack pointer of what was saved last on a stack. -/
def resumed (f : IsrFile R X k) (s : ContextRun R X k) (t : Nat) : ContextRun R X k :=
  match s.saved t, f.restore with
  | v :: rest, instr :: left =>
    ⟨(s.machine.set f.result v.stack).step f.sp instr, t,
      Function.update s.saved t ({ v with left := left } :: rest)⟩
  | _, _ => s

/-- The next instruction that restores, which may be the `iret`. -/
def restored (f : IsrFile R X k) (s : ContextRun R X k) : ContextRun R X k :=
  match s.saved s.thread with
  | [] => s
  | v :: rest =>
    match v.left with
    | [] =>
      { s with
        machine := (f.iret s.machine).1
        saved := Function.update s.saved s.thread rest }
    | instr :: left =>
      { s with
        machine := s.machine.step f.sp instr
        saved := Function.update s.saved s.thread
          ({ v with stack := (s.machine.step f.sp instr).regs f.sp, left := left } :: rest) }

theorem restored_step (hlt : s.remaining s.thread = some n) (hn : n < f.restore.length) :
    ContextStep f stack s (s.restored f) := by
  rw [remaining] at hlt
  rw [restored]
  cases hsaved : s.saved s.thread with
  | nil =>
    rw [hsaved] at hlt
    cases hlt
  | cons v rest =>
    rw [hsaved] at hlt
    cases hlt
    dsimp only
    cases hleft : v.left with
    | nil => exact .iret s hsaved hleft
    | cons instr left => exact .restore s hsaved (fun he => absurd hn (he ▸ lt_irrefl _)) hleft

theorem restored_reachable (hr : Reachable (Start f stack) (ContextStep f stack) s) (n : Nat)
    (h : ∀ i < n, ∃ m < f.restore.length,
      ((restored f)^[i] s).remaining ((restored f)^[i] s).thread = some m) :
    Reachable (Start f stack) (ContextStep f stack) ((restored f)^[n] s) := by
  induction n with
  | zero => exact hr
  | succ n ih =>
    obtain ⟨m, hm, hn⟩ := h n (Nat.lt_succ_self n)
    rw [Function.iterate_succ_apply']
    exact (ih fun i hi => h i (Nat.lt_succ_of_lt hi)).step (restored_step hn hm)

theorem Sound.left_eq {l : f.Laws} (h : s.Sound l stack)
    (hn : s.remaining t = some f.restore.length) :
    ∃ v rest, s.saved t = v :: rest ∧ v.left = f.restore := by
  rw [remaining, Option.map_eq_some_iff] at hn
  obtain ⟨v, hv, hlen⟩ := hn
  obtain ⟨rest, hsaved⟩ := List.head?_eq_some_iff.1 hv
  have hsuffix := (h.keeps t v (hsaved ▸ List.mem_cons_self)).suffix
  exact ⟨v, rest, hsaved, hsuffix.eq_of_length hlen⟩

theorem interrupt_reachable (l : f.Laws) (hapart : ∀ t t', t ≠ t' → (stack t).Apart (stack t'))
    (hr : Reachable (Start f stack) (ContextStep f stack) s)
    (hroom : f.room ≤ (stack s.thread).offset (s.machine.regs f.sp)) (x : X) (r : Isr) :
    Reachable (Start f stack) (ContextStep f stack) (s.interrupt f x r) := by
  obtain ⟨o, -, ho, hsp⟩ := (sound_of_reachable l hapart hr).onStack
  refine hr.step (.interrupt s x r ⟨_, hroom, le_trans ?_ ho, ?_⟩)
  · rw [hsp, Region.offset, Region.place, add_sub_cancel_left, BitVec.toNat_ofNat]
    exact Nat.mod_le ..
  · exact ((stack s.thread).place_offset _).symm

theorem resumed_reachable (l : f.Laws) (hapart : ∀ t t', t ≠ t' → (stack t).Apart (stack t'))
    (hr : Reachable (Start f stack) (ContextStep f stack) s) (hne : f.sp ≠ f.result)
    (hcode : s.remaining s.thread = some f.restore.length)
    (ht : s.remaining t = some f.restore.length) :
    Reachable (Start f stack) (ContextStep f stack) (s.resumed f t) := by
  have h := sound_of_reachable l hapart hr
  obtain ⟨w, _, hcurrent, hw⟩ := h.left_eq hcode
  obtain ⟨v, rest, hsaved, hleft⟩ := h.left_eq ht
  have hin : s.InCode f := by
    intro u hu
    rw [hcurrent] at hu
    cases hu
    exact hw
  obtain ⟨o, h0, ho, hsp⟩ := h.onStack
  have hrun := hr.step (.run s (s.machine.set f.result v.stack) hin (fun _ _ _ _ _ => rfl)
    ⟨o, h0, ho, (Machine.set_other _ hne _).trans hsp⟩)
  cases hrestore : f.restore with
  | nil =>
    rw [resumed, hrestore]
    split
    · next heq => cases heq
    · exact hr
  | cons instr left =>
    rw [resumed, hsaved, hrestore]
    have hlost : s.saved t = [] ++ v :: rest := hsaved
    exact hrun.step (.resume _ t hin hlost hleft (Machine.set_same ..) (hleft.trans hrestore))

theorem Restores.iret_regs {rs : List R} (h : s.Restores f stack)
    (hsaved : ((s.saved s.thread).map fun v => (v.left.length, rs.map v.regs)) = [(0, vals)]) :
    rs.map (f.iret s.machine).1.regs = vals := by
  obtain ⟨v, hv, he⟩ := List.map_eq_singleton_iff.1 hsaved
  obtain ⟨hleft, hregs⟩ := Prod.mk.inj he
  rw [h.restores v [] hv (List.length_eq_zero_iff.1 hleft)]
  exact hregs

end ContextRun

end runs

namespace Amd64

/-- Two stacks of a page each. -/
def twoStacks : Nat → Region 8
  | 0 => ⟨0x10000, 0x1000, by decide⟩
  | 1 => ⟨0x20000, 0x1000, by decide⟩
  | _ => ⟨0, 0, by decide⟩

theorem twoStacks_apart (t t' : Nat) (ht : t ≠ t') : (twoStacks t).Apart (twoStacks t') := by
  intro a ha
  obtain _ | _ | t := t
  · obtain _ | _ | t' := t'
    · exact absurd rfl ht
    · change (a - 0x10000#64).toNat < 0x1000 at ha
      change 0x1000 ≤ (a - 0x20000#64).toNat
      bv_omega
    · exact Nat.zero_le _
  · obtain _ | _ | t' := t'
    · change (a - 0x20000#64).toNat < 0x1000 at ha
      change 0x1000 ≤ (a - 0x10000#64).toNat
      bv_omega
    · exact absurd rfl ht
    · exact Nat.zero_le _
  · exact absurd ha (Nat.not_lt_zero _)

/-- A machine at the top of a stack. -/
def fresh (t : Nat) (regs : Reg → Word 8) (mem : Bytes 8) : Machine Reg 8 :=
  ⟨fun r => if r = .rsp then (twoStacks t).place (twoStacks t).size else regs r, mem⟩

def first : ContextRun Reg CpuFrame 8 :=
  ⟨fresh 0 (fun r => if r = .rbx then 7 else 5) fun _ => 0, 0, fun _ => []⟩

def frame : CpuFrame := ⟨0x40, 8, 0x202, 16⟩

/-- The timer interrupts the first thread. -/
def ticked : ContextRun Reg CpuFrame 8 := first.interrupt (file 0x1000) frame .isrPit

/-- A second thread makes a system call, and it is the first one that goes on, with two pops. -/
def switched : ContextRun Reg CpuFrame 8 :=
  let second := { ticked with machine := fresh 1 (fun _ => 9) ticked.machine.mem, thread := 1 }
  (ContextRun.restored (file 0x1000))^[2]
    ((second.interrupt (file 0x1000) frame .isrSyscall).resumed (file 0x1000) 0)

/-- A key interrupts the pops, and all is restored but for the last `iretq`. -/
def preempted : ContextRun Reg CpuFrame 8 :=
  (ContextRun.restored (file 0x1000))^[29]
    ((switched.interrupt (file 0x1000) frame .isrKbd).resumed (file 0x1000) 0)

theorem preempted_reachable : Reachable (ContextRun.Start (file 0x1000) twoStacks)
    (ContextStep (file 0x1000) twoStacks) preempted := by
  have hfirst : Reachable (ContextRun.Start (file 0x1000) twoStacks)
      (ContextStep (file 0x1000) twoStacks) first :=
    .init ⟨fun _ => rfl, 0x1000, by decide, by decide, by decide⟩
  have hticked := ContextRun.interrupt_reachable (laws 0x1000) twoStacks_apart hfirst
    (by decide +kernel) frame .isrPit
  have hsecond := hticked.step
    (.start _ 1 (fresh 1 (fun _ => 9) _) (ContextRun.inCode_interrupt _ _ _ _) rfl rfl rfl)
  have hcall := ContextRun.interrupt_reachable (laws 0x1000) twoStacks_apart hsecond
    (by decide +kernel) frame .isrSyscall
  have hback := ContextRun.resumed_reachable (laws 0x1000) twoStacks_apart hcall (by decide)
    (by decide +kernel) (show ContextRun.remaining _ 0 = _ by decide +kernel)
  have hswitched := ContextRun.restored_reachable hback 2 (by decide +kernel)
  have hkey := ContextRun.interrupt_reachable (laws 0x1000) twoStacks_apart hswitched
    (by decide +kernel) frame .isrKbd
  have hagain := ContextRun.resumed_reachable (laws 0x1000) twoStacks_apart hkey (by decide)
    (by decide +kernel) (show ContextRun.remaining _ 0 = _ by decide +kernel)
  exact ContextRun.restored_reachable hagain 29 (by decide +kernel)

end Amd64

namespace I386

/-- One stack of a page. -/
def oneStack : Nat → Region 4
  | 0 => ⟨0x10000, 0x1000, by decide⟩
  | _ => ⟨0, 0, by decide⟩

theorem oneStack_apart (t t' : Nat) (ht : t ≠ t') : (oneStack t).Apart (oneStack t') := by
  intro a ha
  obtain _ | t := t
  · obtain _ | t' := t'
    · exact absurd rfl ht
    · exact Nat.zero_le _
  · exact absurd ha (Nat.not_lt_zero _)

def first : ContextRun Reg CpuFrame 4 :=
  ⟨⟨fun r => if r = .esp then 0x11000 else if r = .ebx then 7 else 5, fun _ => 0⟩, 0, fun _ => []⟩

def frame : CpuFrame := ⟨0x40, 8, 0x202⟩

/-- The timer interrupts the thread, and a key interrupts it again before its `popal`. All is
restored but for the last `iret`. -/
def preempted : ContextRun Reg CpuFrame 4 :=
  let s := (first.interrupt (file 0x1000) frame .isrPit).resumed (file 0x1000) 0
  (ContextRun.restored (file 0x1000))^[3]
    ((s.interrupt (file 0x1000) frame .isrKbd).resumed (file 0x1000) 0)

theorem preempted_reachable : Reachable (ContextRun.Start (file 0x1000) oneStack)
    (ContextStep (file 0x1000) oneStack) preempted := by
  have hfirst : Reachable (ContextRun.Start (file 0x1000) oneStack)
      (ContextStep (file 0x1000) oneStack) first :=
    .init ⟨fun _ => rfl, 0x1000, by decide, by decide, by decide⟩
  have hticked := ContextRun.interrupt_reachable (laws 0x1000) oneStack_apart hfirst
    (by decide +kernel) frame .isrPit
  have hback := ContextRun.resumed_reachable (laws 0x1000) oneStack_apart hticked (by decide)
    (by decide +kernel) (show ContextRun.remaining _ 0 = _ by decide +kernel)
  have hkey := ContextRun.interrupt_reachable (laws 0x1000) oneStack_apart hback
    (by decide +kernel) frame .isrKbd
  have hagain := ContextRun.resumed_reachable (laws 0x1000) oneStack_apart hkey (by decide)
    (by decide +kernel) (show ContextRun.remaining _ 0 = _ by decide +kernel)
  exact ContextRun.restored_reachable hagain 3 (by decide +kernel)

end I386

/-- The last `iret` gives back what the first interrupt took. -/
theorem isr_restores_preempted :
    (Amd64.preempted.Restores (Amd64.file 0x1000) Amd64.twoStacks ∧
      Amd64.general.map ((Amd64.file 0x1000).iret Amd64.preempted.machine).1.regs =
        Amd64.general.map Amd64.first.machine.regs) ∧
    I386.preempted.Restores (I386.file 0x1000) I386.oneStack ∧
      I386.general.map ((I386.file 0x1000).iret I386.preempted.machine).1.regs =
        I386.general.map I386.first.machine.regs := by
  have h64 := isr_restores.1 0x1000 Amd64.twoStacks Amd64.twoStacks_apart _
    Amd64.preempted_reachable
  have h32 := isr_restores.2 0x1000 I386.oneStack I386.oneStack_apart _ I386.preempted_reachable
  exact ⟨⟨h64, h64.iret_regs (by decide +kernel)⟩, h32, h32.iret_regs (by decide +kernel)⟩

end Tupai
