import Mathlib.Logic.Function.Basic
import Tupai.KmemCall
import Tupai.Lib.TestAndSet
import Tupai.Pipe
import Tupai.Str

namespace Tupai
open Lib
set_option autoImplicit true

/-- The line of the log, of which nothing reads the characters: whether the vector has an array, and
its capacity and size. -/
structure Clog where
  arr : Bool
  ccapacity : Nat
  csize : Nat

/-- The next `push` has to allocate. -/
def Clog.Full (clog : Clog) : Prop := clog.csize ≥ clog.ccapacity

instance (clog : Clog) : Decidable clog.Full :=
  inferInstanceAs (Decidable (clog.csize ≥ clog.ccapacity))

/-- What the console shares: the locks of the kernel heap with the CPU's flag, the word of the tty
spinlock, the pipes and the line of the log. -/
structure Tty extends KmemLocks where
  spinlock : Nat
  inpipe : Queue Byte
  outpipe : Queue Byte
  clog : Clog

namespace Tty

def setInpipe (s : Tty) (q : Queue Byte) : Tty := { s with inpipe := q }

def setOutpipe (s : Tty) (q : Queue Byte) : Tty := { s with outpipe := q }

@[simp] theorem setInpipe_spinlock (s : Tty) (q : Queue Byte) :
    (s.setInpipe q).spinlock = s.spinlock := rfl

@[simp] theorem setInpipe_hw (s : Tty) (q : Queue Byte) : (s.setInpipe q).hw = s.hw := rfl

@[simp] theorem setOutpipe_spinlock (s : Tty) (q : Queue Byte) :
    (s.setOutpipe q).spinlock = s.spinlock := rfl

@[simp] theorem setOutpipe_hw (s : Tty) (q : Queue Byte) : (s.setOutpipe q).hw = s.hw := rfl

end Tty

/-- Where a thread is: between two calls, in `tty_read`, or in `__log_ostream::write`. Where
`clog.push` finds no room, `new` calls `kmem_alloc`, and `delete` calls `kmem_dealloc` for the old
array if there was one. -/
inductive ConsolePoint where
  | idle (result : Option Byte)
  | readLock
  | readWait
  | readPop
  | readUnlock (val : Byte)
  | logLock (c : Byte) (point : HwPoint)
  | logPush (c : Byte)
  | logGrow (c : Byte)
  | logAlloc (c : Byte) (old : Bool) (point : KmemPoint)
  | logFree (c : Byte) (point : KmemPoint)
  | logStore (c : Byte)
  | outLock (c : Byte)
  | outPush (c : Byte)
  | outUnlock
  | logUnlock (point : HwPoint)
deriving DecidableEq

namespace ConsolePoint

def Holds : ConsolePoint → Prop
  | .readWait | .readPop | .readUnlock _ | .outPush _ | .outUnlock => True
  | _ => False

def Waits : ConsolePoint → Prop
  | .readLock | .outLock _ => True
  | _ => False

/-- A log write is about to turn interrupts off. -/
def Masks : ConsolePoint → Prop
  | .logLock _ point => point = .lockMask
  | .logAlloc _ _ point | .logFree _ point => point.Masks
  | _ => False

instance : (p : ConsolePoint) → Decidable p.Masks
  | .logLock _ point => inferInstanceAs (Decidable (point = .lockMask))
  | .logAlloc _ _ point | .logFree _ point => inferInstanceAs (Decidable point.Masks)
  | .idle _ | .readLock | .readWait | .readPop | .readUnlock _ | .logPush _ | .logGrow _
    | .logStore _ | .outLock _ | .outPush _ | .outUnlock | .logUnlock _ => isFalse id

def afterLock (c : Byte) (point : HwPoint) : ConsolePoint :=
  if point = .idle then .logPush c else .logLock c point

def afterAlloc (c : Byte) (old : Bool) : Option KmemPoint → ConsolePoint
  | some point => .logAlloc c old point
  | none => if old then .logFree c (.lock .lockTest) else .logStore c

def afterFree (c : Byte) : Option KmemPoint → ConsolePoint
  | some point => .logFree c point
  | none => .logStore c

def afterUnlock (point : HwPoint) : ConsolePoint :=
  if point = .idle then .idle none else .logUnlock point

end ConsolePoint

namespace Tty

def setLocks (s : Tty) (locks : KmemLocks) : Tty := { s with toKmemLocks := locks }

def setHw (s : Tty) (hw : HwState) : Tty := { s with hw := hw }

end Tty

/-- One step of `tty_read` or `__log_ostream::write`. -/
def ttyStep (s : Tty) : ConsolePoint → Tty × ConsolePoint
  | .idle result => (s, .idle result)
  | .readLock => ({ s with spinlock := 1 }, if s.spinlock = 0 then .readWait else .readLock)
  | .readWait => (s, if s.inpipe.len = 0 then .readWait else .readPop)
  | .readPop =>
    (s.setInpipe (readUnsafe s.inpipe).2, .readUnlock (readUnsafe s.inpipe).1)
  | .readUnlock val => ({ s with spinlock := 0 }, .idle (some val))
  | .logLock c point =>
    let (hw, point) := hwAccess s.hw point
    (s.setHw hw, .afterLock c point)
  | .logPush c => (s, if s.clog.Full then .logGrow c else .logStore c)
  | .logGrow c =>
    ({ s with clog := { s.clog with ccapacity := max (s.clog.ccapacity * 2) 1 } },
      .logAlloc c s.clog.arr (.lock .lockTest))
  | .logAlloc c old point =>
    let (locks, point) := kmemStep s.toKmemLocks point
    let s := s.setLocks locks
    (if point = none then { s with clog := { s.clog with arr := true } } else s,
      .afterAlloc c old point)
  | .logFree c point =>
    let (locks, point) := kmemStep s.toKmemLocks point
    (s.setLocks locks, .afterFree c point)
  | .logStore c =>
    ({ s with clog := { s.clog with csize := s.clog.csize + 1 } }, .outLock c)
  | .outLock c => ({ s with spinlock := 1 }, if s.spinlock = 0 then .outPush c else .outLock c)
  | .outPush c => (s.setOutpipe (fifoWrite s.outpipe c), .outUnlock)
  | .outUnlock => ({ s with spinlock := 0 }, .logUnlock .unlockTest)
  | .logUnlock point =>
    let (hw, point) := hwAccess s.hw point
    (s.setHw hw, .afterUnlock point)

namespace ConsolePoint

def Proper : ConsolePoint → Prop
  | .logLock _ point => point.Locks
  | .logAlloc _ _ point | .logFree _ point => point.Proper
  | .logUnlock point => point.Unlocks
  | _ => True

/-- With interrupts off, an allocation turns them on before `tty_write`, or waits for the pool. -/
def Relieved (s : Tty) : ConsolePoint → Prop
  | .logLock _ point =>
    point = .lockMark ∧ s.clog.Full ∧ (s.pool ≠ 0 ∨ s.hw.hwIntEnabled = true)
  | .logPush _ =>
    s.clog.Full ∧ (s.pool ≠ 0 ∨ s.hw.hwLocked = true ∧ s.hw.hwIntEnabled = true)
  | .logGrow _ => s.pool ≠ 0 ∨ s.hw.hwLocked = true ∧ s.hw.hwIntEnabled = true
  | .logAlloc _ _ point | .logFree _ point => point.Relieved s.toKmemLocks
  | _ => False

/-- With interrupts off, the log write comes to `tty_write` with interrupts off. -/
def Stays (s : Tty) : ConsolePoint → Prop
  | .logLock _ point =>
    point = .lockMark ∧ (s.clog.Full → s.pool = 0 ∧ s.hw.hwIntEnabled = false)
  | .logPush _ => s.clog.Full → s.pool = 0 ∧ HwOff s.hw
  | .logGrow _ => s.pool = 0 ∧ HwOff s.hw
  | .logAlloc _ _ point | .logFree _ point => point.Stays s.toKmemLocks ∧ HwOff s.hw
  | .logStore _ | .outLock _ => True
  | _ => False

/-- The steps to `tty_write` that are left at most. -/
def left : ConsolePoint → Nat
  | .logLock _ _ => 42
  | .logPush _ => 41
  | .logGrow _ => 40
  | .logAlloc _ _ point => 20 + point.left
  | .logFree _ point => 2 + point.left
  | .logStore _ => 1
  | _ => 0

end ConsolePoint

theorem ttyStep_logAlloc (s : Tty) (c : Byte) (old : Bool) (point : KmemPoint) :
    (ttyStep s (.logAlloc c old point)).1.toKmemLocks = (kmemStep s.toKmemLocks point).1 ∧
      (ttyStep s (.logAlloc c old point)).1.spinlock = s.spinlock := by
  simp only [ttyStep]
  split_ifs <;> exact ⟨rfl, rfl⟩

theorem ttyStep_proper (h : p.Proper) (s : Tty) : (ttyStep s p).2.Proper := by
  cases p with
  | idle | readPop | readUnlock | logGrow | logStore | outPush | outUnlock => trivial
  | readLock | readWait | logPush | outLock =>
    simp only [ttyStep]
    split_ifs <;> trivial
  | logLock c point =>
    simp only [ttyStep, ConsolePoint.afterLock]
    split_ifs with hidle
    · trivial
    · exact HwPoint.Locks.access h s.hw hidle
  | logAlloc c old point =>
    simp only [ttyStep]
    cases hnext : (kmemStep s.toKmemLocks point).2 with
    | none =>
      rw [ConsolePoint.afterAlloc]
      split_ifs <;> trivial
    | some next => exact KmemPoint.Proper.step h hnext
  | logFree c point =>
    simp only [ttyStep]
    cases hnext : (kmemStep s.toKmemLocks point).2 with
    | none => trivial
    | some next => exact KmemPoint.Proper.step h hnext
  | logUnlock point =>
    simp only [ttyStep, ConsolePoint.afterUnlock]
    split_ifs with hidle
    · trivial
    · exact HwPoint.Unlocks.access h s.hw hidle

theorem ttyStep_lockStep (s : Tty) (p : ConsolePoint) :
    LockStep s.spinlock p.Holds (ttyStep s p).1.spinlock (ttyStep s p).2.Holds := by
  cases p with
  | idle | logGrow | logStore => exact .keep .rfl
  | logPush =>
    simp only [ttyStep]
    split_ifs <;> exact .keep .rfl
  | readPop =>
    rw [ttyStep, Tty.setInpipe_spinlock]
    exact .keep (iff_of_true trivial trivial)
  | outPush =>
    rw [ttyStep, Tty.setOutpipe_spinlock]
    exact .keep (iff_of_true trivial trivial)
  | readLock | outLock =>
    by_cases hw : s.spinlock = 0
    · simp only [ttyStep, hw, ↓reduceIte]
      exact .take trivial
    · simp only [ttyStep, hw, ↓reduceIte]
      exact .wait hw .rfl
  | readWait =>
    simp only [ttyStep]
    split_ifs <;> exact .keep .rfl
  | readUnlock | outUnlock => exact .release trivial id
  | logLock c point =>
    refine .keep ?_
    simp only [ttyStep, ConsolePoint.afterLock]
    split_ifs <;> exact .rfl
  | logAlloc c old point =>
    rw [(ttyStep_logAlloc s c old point).2]
    refine .keep ?_
    simp only [ttyStep]
    cases (kmemStep s.toKmemLocks point).2 <;> cases old <;> exact .rfl
  | logFree c point =>
    refine .keep ?_
    simp only [ttyStep]
    cases (kmemStep s.toKmemLocks point).2 <;> exact .rfl
  | logUnlock point =>
    refine .keep ?_
    simp only [ttyStep, ConsolePoint.afterUnlock]
    split_ifs <;> exact .rfl

theorem ttyStep_flag {s : Tty} (hp : p.Proper) (hon : s.hw.interruptFlag = true)
    (hoff : (ttyStep s p).1.hw.interruptFlag = false) : p.Masks := by
  cases p with
  | logLock _ point => exact HwPoint.access_flag hon hoff
  | logUnlock point =>
    cases HwPoint.access_flag hon hoff
    cases hp
  | logAlloc c old point =>
    rw [(ttyStep_logAlloc s c old point).1] at hoff
    exact KmemPoint.kmemStep_flag hp hon hoff
  | logFree c point => exact KmemPoint.kmemStep_flag (s := s.toKmemLocks) hp hon hoff
  | readPop =>
    rw [ttyStep, Tty.setInpipe_hw] at hoff
    cases hon.symm.trans hoff
  | outPush =>
    rw [ttyStep, Tty.setOutpipe_hw] at hoff
    cases hon.symm.trans hoff
  | idle | readLock | readWait | readUnlock | logPush | logGrow | logStore | outLock
    | outUnlock => cases hon.symm.trans hoff

namespace ConsolePoint

variable {s : Tty} {p : ConsolePoint}

theorem Masks.not_holds (h : p.Masks) : ¬ p.Holds := by
  cases p with
  | logLock | logAlloc | logFree => exact id
  | idle | readLock | readWait | readPop | readUnlock | logPush | logGrow | logStore | outLock
    | outPush | outUnlock | logUnlock => cases h

theorem Masks.not_idle (h : p.Masks) (result : Option Byte) : p ≠ .idle result := by
  rintro rfl
  exact h

theorem Relieved.step (h : p.Relieved s) (hoff : (ttyStep s p).1.hw.interruptFlag = false) :
    (ttyStep s p).2.Relieved (ttyStep s p).1 := by
  cases p with
  | logLock c point =>
    obtain ⟨rfl, hfull, hback⟩ := h
    exact ⟨hfull, hback.imp_right fun he => ⟨rfl, he⟩⟩
  | logPush c =>
    obtain ⟨hfull, hback⟩ := h
    simp only [ttyStep]
    rw [if_pos hfull]
    exact hback
  | logGrow c => exact h
  | logAlloc c old point =>
    have hlocks := (ttyStep_logAlloc s c old point).1
    have hpoint : (ttyStep s (.logAlloc c old point)).2 =
      afterAlloc c old (kmemStep s.toKmemLocks point).2 := rfl
    rw [hlocks] at hoff
    obtain ⟨next, hnext, hrelieved⟩ := KmemPoint.Relieved.step h hoff
    rw [hpoint, hnext, afterAlloc, Relieved, hlocks]
    exact hrelieved
  | logFree c point =>
    have hpoint : (ttyStep s (.logFree c point)).2 =
      afterFree c (kmemStep s.toKmemLocks point).2 := rfl
    obtain ⟨next, hnext, hrelieved⟩ := KmemPoint.Relieved.step (s := s.toKmemLocks) h hoff
    rw [hpoint, hnext]
    exact hrelieved
  | idle | readLock | readWait | readPop | readUnlock | logStore | outLock | outPush | outUnlock
    | logUnlock => cases h

/-- With interrupts off, the log write goes on to `tty_write`. -/
theorem Stays.step (hp : p.Proper) (h : p.Stays s) (hoff : s.hw.interruptFlag = false) :
    p.Waits ∨ (∀ result, p ≠ .idle result) ∧ ¬ p.Masks ∧
      (ttyStep s p).1.hw.interruptFlag = false ∧ (ttyStep s p).2.Stays (ttyStep s p).1 ∧
        (ttyStep s p).2.left < p.left := by
  cases p with
  | logLock c point =>
    obtain ⟨rfl, hback⟩ := h
    refine .inr ⟨nofun, nofun, hoff, fun hfull => ?_, Nat.lt_succ_self 41⟩
    obtain ⟨hpool, he⟩ := hback hfull
    exact ⟨hpool, hoff, fun _ => he⟩
  | logPush c =>
    refine .inr ⟨nofun, id, hoff, ?_⟩
    simp only [ttyStep]
    by_cases hfull : s.clog.Full
    · rw [if_pos hfull]
      exact ⟨h hfull, Nat.lt_succ_self 40⟩
    · rw [if_neg hfull]
      exact ⟨trivial, (by decide : 1 < 41)⟩
  | logGrow c =>
    obtain ⟨hpool, hhw⟩ := h
    exact .inr ⟨nofun, id, hoff, ⟨⟨hpool, Nat.one_ne_zero⟩, hhw⟩,
      (by decide : 20 + (10 + 6) < 40)⟩
  | logAlloc c old point =>
    obtain ⟨hstays, hhw⟩ := h
    have hmask : ¬ point.Masks := hstays.not_masks
    obtain ⟨hhw', hnext⟩ := KmemPoint.Stays.step hp hstays hhw
    have hlocks := (ttyStep_logAlloc s c old point).1
    have hpoint : (ttyStep s (.logAlloc c old point)).2 =
      afterAlloc c old (kmemStep s.toKmemLocks point).2 := rfl
    rw [← hlocks] at hhw'
    refine .inr ⟨nofun, hmask, hhw'.1, ?_⟩
    rw [hpoint]
    rcases hnext with ⟨hnone, hpool⟩ | ⟨next, hsome, hnext, hlt⟩
    · rw [hnone, afterAlloc]
      split_ifs
      · rw [← hlocks] at hpool
        exact ⟨⟨⟨hpool, Nat.one_ne_zero⟩, hhw'⟩,
          Nat.lt_add_right point.left (by decide : 2 + (10 + 6) < 20)⟩
      · exact ⟨trivial, Nat.lt_add_right point.left (by decide : 1 < 20)⟩
    · rw [hsome, afterAlloc, Stays, hlocks]
      exact ⟨⟨hnext, hlocks ▸ hhw'⟩, Nat.add_lt_add_left hlt 20⟩
  | logFree c point =>
    obtain ⟨hstays, hhw⟩ := h
    have hmask : ¬ point.Masks := hstays.not_masks
    obtain ⟨hhw', hnext⟩ := KmemPoint.Stays.step hp hstays hhw
    have hpoint : (ttyStep s (.logFree c point)).2 =
      afterFree c (kmemStep s.toKmemLocks point).2 := rfl
    refine .inr ⟨nofun, hmask, hhw'.1, ?_⟩
    rw [hpoint]
    rcases hnext with ⟨hnone, hpool⟩ | ⟨next, hsome, hnext, hlt⟩
    · rw [hnone]
      exact ⟨trivial, Nat.lt_add_right point.left (by decide : 1 < 2)⟩
    · rw [hsome]
      exact ⟨⟨hnext, hhw'⟩, Nat.add_lt_add_left hlt 2⟩
  | logStore c => exact .inr ⟨nofun, id, hoff, trivial, Nat.one_pos⟩
  | outLock c => exact .inl trivial
  | idle | readLock | readWait | readPop | readUnlock | outPush | outUnlock | logUnlock => cases h

/-- A log write that is about to turn interrupts off will allocate, and that turns them on again
or waits for the pool. -/
def Allocates (s : Tty) : ConsolePoint → Prop
  | .logLock _ _ => s.clog.Full ∧ (s.pool ≠ 0 ∨ s.hw.hwIntEnabled = true)
  | _ => s.pool ≠ 0 ∨ s.hw.hwIntEnabled = true

instance (s : Tty) : (p : ConsolePoint) → Decidable (p.Allocates s)
  | .logLock _ _ => inferInstanceAs (Decidable (_ ∧ (_ ∨ _)))
  | .idle _ | .readLock | .readWait | .readPop | .readUnlock _ | .logPush _ | .logGrow _
    | .logAlloc _ _ _ | .logFree _ _ | .logStore _ | .outLock _ | .outPush _ | .outUnlock
    | .logUnlock _ => inferInstanceAs (Decidable (_ ∨ _))

end ConsolePoint

/-- A thread, and the interrupt handlers on its stack. -/
structure ConsoleThread where
  point : ConsolePoint
  handlers : List HwFrame
deriving DecidableEq

/-- One CPU with any number of threads. -/
structure Console (ι : Type) where
  tty : Tty
  threads : ι → ConsoleThread
  running : ι

inductive ConsoleAction (ι : Type) where
  | read
  | log (c : Byte)
  | run
  | interrupt
  | handler (a : CpuAction)
  | press (c : Byte)
  | switch (t : ι)

namespace Console

variable {ι : Type}

def current (s : Console ι) : ConsoleThread := s.threads s.running

/-- The running thread is in `tty_read` or in a log write, and holds the spinlock. -/
def Holds (s : Console ι) (t : ι) : Prop := (s.threads t).point.Holds

variable {s : Console ι} {a : ConsoleAction ι}

theorem holds_tty (s : Console ι) (tty : Tty) (t : ι) :
    ({ s with tty := tty }).Holds t ↔ s.Holds t := .rfl

def Start (s : Console ι) : Prop :=
  s.tty.spinlock = 0 ∧ ∀ t, s.threads t = ⟨.idle none, []⟩

/-- Interrupts are off in the running thread's own code, and another thread holds the spinlock. -/
structure Trapped (s : Console ι) : Prop where
  handlers : s.current.handlers = []
  masked : s.tty.hw.interruptFlag = false
  held : ∃ t, t ≠ s.running ∧ s.Holds t

/-- The running thread waits for the spinlock with interrupts off, and another one holds it. -/
structure Deadlocked (s : Console ι) : Prop extends s.Trapped where
  waits : s.current.point.Waits

/-- A log write turns interrupts off only while the tty spinlock is free, or where an allocation
comes after it that turns them on: `clog` has no room, and no handler has changed `hw_int_enabled`
since it was tested. An allocation that has to wait for the pool never gets to `tty_write`. -/
def Spares (s : Console ι) : ConsoleAction ι → Prop
  | .run => s.current.handlers = [] → s.current.point.Masks →
    s.tty.spinlock = 0 ∨ s.current.point.Allocates s.tty
  | _ => True

instance (s : Console ι) : (a : ConsoleAction ι) → Decidable (s.Spares a)
  | .run => inferInstanceAs (Decidable (_ → _ → _ ∨ _))
  | .read | .log _ | .interrupt | .handler _ | .press _ | .switch _ => isTrue trivial

theorem of_not_spares (ha : ¬ s.Spares a) : a = .run ∧ s.current.handlers = [] ∧
    s.current.point.Masks ∧ s.tty.spinlock ≠ 0 ∧ ¬ s.current.point.Allocates s.tty := by
  cases a with
  | read | log | interrupt | handler | press | switch => exact absurd trivial ha
  | run =>
    rw [Spares] at ha
    push Not at ha
    exact ⟨rfl, ha⟩

/-- The invariant of runs whose log writes spare the others. -/
structure Sound (s : Console ι) : Prop where
  guards : Guards s.tty.spinlock s.Holds
  proper : ∀ t, (s.threads t).point.Proper
  clear : s.Trapped → s.current.point.Relieved s.tty

theorem Sound.not_deadlocked (h : s.Sound) : ¬ s.Deadlocked := by
  intro hd
  have hrelieved := h.clear hd.toTrapped
  have hwaits := hd.waits
  cases hp : s.current.point with
  | readLock | outLock =>
    rw [hp] at hrelieved
    cases hrelieved
  | idle | readWait | readPop | readUnlock | logLock | logPush | logGrow | logAlloc | logFree
    | logStore | outPush | outUnlock | logUnlock =>
    rw [hp] at hwaits
    cases hwaits

theorem Sound.start (h : s.Start) : s.Sound := by
  have hnone (t : ι) : ¬ s.Holds t := by
    rw [Holds, h.2 t]
    exact id
  refine ⟨?_, fun t => ?_, fun ⟨_, _, t, _, ht⟩ => absurd ht (hnone t)⟩
  · rw [h.1]
    exact .free hnone
  · rw [h.2 t]
    trivial

variable [DecidableEq ι]

def become (s : Console ι) (tty : Tty) (th : ConsoleThread) : Console ι :=
  { s with tty := tty, threads := Function.update s.threads s.running th }

/-- Interrupts come while the flag is set. A handler locks and unlocks, presses keys inside of its
critical section, and returns to the thread that it interrupted or to another one. -/
def step (s : Console ι) : ConsoleAction ι → Option (Console ι)
  | .read =>
    match s.current with
    | ⟨.idle _, []⟩ => some (s.become s.tty ⟨.readLock, []⟩)
    | _ => none
  | .log c =>
    match s.current with
    | ⟨.idle _, []⟩ => some (s.become s.tty ⟨.logLock c .lockTest, []⟩)
    | _ => none
  | .run =>
    match s.current with
    | ⟨.idle _, _⟩ => none
    | ⟨point, []⟩ => some (s.become (ttyStep s.tty point).1 ⟨(ttyStep s.tty point).2, []⟩)
    | _ => none
  | .interrupt =>
    if interruptEnabled s.tty.hw then
      some (s.become { s.tty with hw := interruptEnable s.tty.hw false }
        ⟨s.current.point, ⟨.idle, 0⟩ :: s.current.handlers⟩)
    else none
  | .handler a =>
    match s.current.handlers with
    | [] => none
    | h :: rest =>
      (handlerStep s.tty.hw h rest a).map fun (hw, handlers) =>
        s.become { s.tty with hw := hw } ⟨s.current.point, handlers⟩
  | .press c =>
    match s.current.handlers with
    | ⟨.idle, _ + 1⟩ :: _ =>
      some { s with tty := s.tty.setInpipe (fifoWrite s.tty.inpipe c) }
    | _ => none
  | .switch t =>
    match s.current.handlers with
    | ⟨.idle, 0⟩ :: rest =>
      some { s.become { s.tty with hw := interruptEnable s.tty.hw true }
        ⟨s.current.point, rest⟩ with running := t }
    | _ => none

def SparingStep (s s' : Console ι) : Prop := ∃ a, s.Spares a ∧ s.step a = some s'

/-- What a step of the console is made of. -/
inductive Moves (s : Console ι) : ConsoleAction ι → Console ι → Prop where
  | call (a : ConsoleAction ι) (result : Option Byte) (p : ConsolePoint) :
      s.current = ⟨.idle result, []⟩ → ¬ p.Holds → p.Proper →
      Moves s a (s.become s.tty ⟨p, []⟩)
  | run : s.current.handlers = [] →
      Moves s .run (s.become (ttyStep s.tty s.current.point).1
        ⟨(ttyStep s.tty s.current.point).2, []⟩)
  | handle (a : ConsoleAction ι) (hw : HwState) (handlers : List HwFrame) :
      s.current.handlers ≠ [] ∨ s.tty.hw.interruptFlag = true →
      (hw.interruptFlag || !handlers.isEmpty) = true →
      Moves s a (s.become { s.tty with hw := hw } ⟨s.current.point, handlers⟩)
  | press (c : Byte) : s.current.handlers ≠ [] →
      Moves s (.press c) { s with tty := s.tty.setInpipe (fifoWrite s.tty.inpipe c) }
  | switch (t : ι) (rest : List HwFrame) : s.current.handlers ≠ [] →
      Moves s (.switch t) { s.become { s.tty with hw := interruptEnable s.tty.hw true }
        ⟨s.current.point, rest⟩ with running := t }

variable {s' : Console ι}

theorem step_moves (hs : s.step a = some s') : s.Moves a s' := by
  cases a with
  | read | log c =>
    simp only [step] at hs
    split at hs
    · rename_i hcur
      cases hs
      exact .call _ _ _ hcur id trivial
    · cases hs
  | run =>
    simp only [step] at hs
    split at hs
    · cases hs
    · rename_i point _ hcur
      cases hs
      have hrun := Moves.run (s := s) (by rw [hcur])
      rwa [hcur] at hrun
    · cases hs
  | interrupt =>
    simp only [step] at hs
    split_ifs at hs with hf
    cases hs
    exact .handle _ _ _ (.inr hf) (Bool.or_true _)
  | handler a =>
    simp only [step] at hs
    split at hs
    · cases hs
    · rename_i h rest hh
      obtain ⟨⟨hw, handlers⟩, hg, rfl⟩ := Option.map_eq_some_iff.1 hs
      refine .handle _ hw handlers (.inl ?_) (handlerStep_on hg)
      rw [hh]
      exact List.cons_ne_nil h rest
  | press c =>
    simp only [step] at hs
    split at hs
    · rename_i hh
      cases hs
      refine .press c ?_
      rw [hh]
      exact List.cons_ne_nil _ _
    · cases hs
  | switch t =>
    simp only [step] at hs
    split at hs
    · rename_i rest hh
      cases hs
      refine .switch t rest ?_
      rw [hh]
      exact List.cons_ne_nil _ _
    · cases hs

@[simp] theorem become_current (s : Console ι) (tty : Tty) (th : ConsoleThread) :
    (s.become tty th).current = th := Function.update_self ..

theorem become_holds_self (s : Console ι) (tty : Tty) (th : ConsoleThread) :
    (s.become tty th).Holds s.running ↔ th.point.Holds := by
  change (Function.update s.threads s.running th s.running).point.Holds ↔ _
  rw [Function.update_self]

theorem become_holds (s : Console ι) (tty : Tty) (th : ConsoleThread) (ht : t ≠ s.running) :
    (s.become tty th).Holds t ↔ s.Holds t := by
  change (Function.update s.threads s.running th t).point.Holds ↔ _
  rw [Function.update_of_ne ht]
  rfl

theorem Moves.guards (h : Guards s.tty.spinlock s.Holds) (hm : s.Moves a s') :
    Guards s'.tty.spinlock s'.Holds := by
  have hbecome (tty : Tty) (th : ConsoleThread)
      (hs : LockStep s.tty.spinlock s.current.point.Holds tty.spinlock th.point.Holds) :
      Guards tty.spinlock (s.become tty th).Holds := by
    rw [← become_holds_self s tty th] at hs
    exact h.step hs fun t ht => become_holds s tty th ht
  cases hm with
  | call _ _ p hcur hp =>
    refine hbecome _ _ (.keep (iff_of_false hp ?_))
    rw [hcur]
    exact id
  | run => exact hbecome _ _ (ttyStep_lockStep ..)
  | handle _ hw handlers => exact hbecome { s.tty with hw := hw } _ (.keep .rfl)
  | press c =>
    change Guards (s.tty.setInpipe _).spinlock _
    rw [Tty.setInpipe_spinlock]
    exact h.congr fun t => holds_tty s _ t
  | switch t rest =>
    exact hbecome { s.tty with hw := interruptEnable s.tty.hw true } ⟨s.current.point, rest⟩
      (.keep .rfl)

theorem become_proper (h : ∀ t, (s.threads t).point.Proper) (tty : Tty) (hp : p.Proper)
    (handlers : List HwFrame) (t : ι) :
    ((s.become tty ⟨p, handlers⟩).threads t).point.Proper := by
  change (Function.update s.threads s.running ⟨p, handlers⟩ t).point.Proper
  by_cases ht : t = s.running
  · rw [ht, Function.update_self]
    exact hp
  · rw [Function.update_of_ne ht]
    exact h t

theorem Moves.proper (h : ∀ t, (s.threads t).point.Proper) (hm : s.Moves a s') (t : ι) :
    (s'.threads t).point.Proper := by
  cases hm with
  | call _ _ p _ _ hp => exact become_proper h _ hp _ t
  | run => exact become_proper h _ (ttyStep_proper (h s.running) s.tty) _ t
  | handle => exact become_proper h _ (h s.running) _ t
  | press => exact h t
  | switch =>
    exact become_proper h { s.tty with hw := interruptEnable s.tty.hw true } (h s.running) _ t

/-- Where a log write turns interrupts off, what comes next turns them on again. -/
theorem allocates_relieved {tty : Tty} (hp : p.Masks) (h : p.Allocates tty) :
    (ttyStep tty p).2.Relieved (ttyStep tty p).1 := by
  cases p with
  | logLock c point =>
    cases hp
    exact ⟨rfl, h⟩
  | logAlloc c old point | logFree c point =>
    cases point with
    | lock point =>
      cases hp
      exact h
    | poolLock | poolUnlock | unlock => cases hp
  | idle | readLock | readWait | readPop | readUnlock | logPush | logGrow | logStore | outLock
    | outPush | outUnlock | logUnlock => cases hp

/-- Elsewhere the log write stays with interrupts off. -/
theorem masks_stays {tty : Tty} (hp : p.Masks) (h : ¬ p.Allocates tty) :
    (ttyStep tty p).1.hw.interruptFlag = false ∧ (ttyStep tty p).2.Stays (ttyStep tty p).1 := by
  cases p with
  | logLock c point =>
    cases hp
    refine ⟨rfl, rfl, fun hfull => ?_⟩
    rw [ConsolePoint.Allocates] at h
    push Not at h
    obtain ⟨hpool, he⟩ := h hfull
    exact ⟨hpool, Bool.eq_false_iff.2 he⟩
  | logAlloc c old point | logFree c point =>
    cases point with
    | lock point =>
      cases hp
      obtain ⟨hpool, he⟩ : tty.pool = 0 ∧ ¬ tty.hw.hwIntEnabled = true :=
        (not_or.1 h).imp_left not_not.1
      rw [Bool.not_eq_true] at he
      exact ⟨rfl, ⟨hpool, Nat.one_ne_zero, he⟩, rfl, fun _ => he⟩
    | poolLock | poolUnlock | unlock => cases hp
  | idle | readLock | readWait | readPop | readUnlock | logPush | logGrow | logStore | outLock
    | outPush | outUnlock | logUnlock => cases hp

theorem Moves.clear (h : s.Sound) (ha : s.Spares a) (hm : s.Moves a s') (ht : s'.Trapped) :
    s'.current.point.Relieved s'.tty := by
  obtain ⟨hnil, hoff, t, ht, hheld⟩ := ht
  cases hm with
  | call _ _ p hcur =>
    rw [become_holds s _ _ ht] at hheld
    have hrelieved := h.clear ⟨by rw [hcur], hoff, t, ht, hheld⟩
    rw [hcur] at hrelieved
    cases hrelieved
  | run hh =>
    rw [become_holds s _ _ ht] at hheld
    rw [become_current]
    cases hf : s.tty.hw.interruptFlag with
    | false => exact (h.clear ⟨hh, hf, t, ht, hheld⟩).step hoff
    | true =>
      have hmask := ttyStep_flag (h.proper s.running) hf hoff
      rcases ha hh hmask with hw | halloc
      · exact absurd hheld (h.guards.none hw t)
      · exact allocates_relieved hmask halloc
  | handle _ hw handlers _ hor =>
    rw [become_current] at hnil
    subst hnil
    cases hor.symm.trans ((Bool.or_false _).trans hoff)
  | press c hh => exact absurd hnil hh
  | switch t rest => cases hoff

theorem Sound.step (h : s.Sound) (hs : s.SparingStep s') : s'.Sound := by
  obtain ⟨a, ha, hs⟩ := hs
  have hm := step_moves hs
  exact ⟨hm.guards h.guards, hm.proper h.proper, hm.clear h ha⟩

theorem Sound.run (hr : Reachable Start SparingStep s) : s.Sound := by
  apply hr.invariant
  · exact fun _ h => .start h
  · exact fun _ _ h hs => h.step hs

theorem ttyStep_waits {tty : Tty} (hp : p.Waits) (hw : tty.spinlock = 1) :
    ttyStep tty p = (tty, p) := by
  obtain ⟨locks, word, inpipe, outpipe, clog⟩ := tty
  cases hw
  cases p with
  | readLock | outLock => rfl
  | idle | readWait | readPop | readUnlock | logLock | logPush | logGrow | logAlloc | logFree
    | logStore | outPush | outUnlock | logUnlock => cases hp

theorem Deadlocked.stuck (h : s.Deadlocked) (hw : s.tty.spinlock = 1)
    (hs : s.step a = some s') : s' = s := by
  cases step_moves hs with
  | call _ _ p hcur =>
    have hwaits := h.waits
    rw [hcur] at hwaits
    cases hwaits
  | run hh =>
    have hcur : (⟨s.current.point, []⟩ : ConsoleThread) = s.threads s.running := by
      rw [← hh]
      rfl
    rw [ttyStep_waits h.waits hw, become, hcur, Function.update_eq_self]
  | handle _ hw handlers hon =>
    rcases hon with hne | hon
    · exact absurd h.handlers hne
    · cases h.masked.symm.trans hon
  | press c hne => exact absurd h.handlers hne
  | switch t rest hne => exact absurd h.handlers hne

theorem Trapped.become (h : s.Trapped) {tty : Tty} (hf : tty.hw.interruptFlag = false)
    (p : ConsolePoint) : (s.become tty ⟨p, []⟩).Trapped := by
  obtain ⟨t, ht, hheld⟩ := h.held
  refine ⟨?_, hf, t, ht, (become_holds s _ _ ht).2 hheld⟩
  rw [become_current]

theorem step_run (hcur : s.current = ⟨point, []⟩) (hp : ∀ result, point ≠ .idle result) :
    s.step .run = some (s.become (ttyStep s.tty point).1 ⟨(ttyStep s.tty point).2, []⟩) := by
  simp only [step, hcur]

theorem sparing_run (hcur : s.current = ⟨point, []⟩) (hp : ∀ result, point ≠ .idle result)
    (hm : ¬ point.Masks) :
    s.SparingStep (s.become (ttyStep s.tty point).1 ⟨(ttyStep s.tty point).2, []⟩) := by
  refine ⟨.run, fun _ hmask => absurd hmask ?_, step_run hcur hp⟩
  rw [hcur]
  exact hm

/-- A log write that stays with interrupts off, while another thread holds the spinlock, comes to
wait for it. -/
theorem Trapped.deadlocked (h : s.Trapped) (hproper : s.current.point.Proper)
    (hstays : s.current.point.Stays s.tty) (hr : Reachable start SparingStep s) :
    ∃ d, Reachable start SparingStep d ∧ d.Deadlocked := by
  induction hn : s.current.point.left using Nat.strong_induction_on generalizing s with
  | _ n ih =>
    rcases hstays.step hproper h.masked with hwaits | ⟨hidle, hmask, hoff, hnext, hlt⟩
    · exact ⟨s, hr, h, hwaits⟩
    · have hcur : s.current = ⟨s.current.point, []⟩ := by rw [← h.handlers]
      have htrapped := h.become hoff (ttyStep s.tty s.current.point).2
      have hstep := sparing_run hcur hidle hmask
      refine ih _ (hn ▸ hlt) htrapped ?_ ?_ (hr.step hstep) ?_
      · rw [become_current]
        exact ttyStep_proper hproper s.tty
      · rw [become_current]
        exact hnext
      · rw [become_current]

/-- A log write that does not spare the others leads to a deadlock. -/
theorem Sound.trapped (h : s.Sound) (ha : ¬ s.Spares a) (hs : s.step a = some s') :
    ∃ d, Reachable (· = s') SparingStep d ∧ d.Deadlocked := by
  obtain ⟨rfl, hh, hmask, hw, halloc⟩ := of_not_spares ha
  obtain ⟨t, ht⟩ := h.guards.owner hw
  have hne : t ≠ s.running := by
    rintro rfl
    exact hmask.not_holds ht
  have hcur : s.current = ⟨s.current.point, []⟩ := by rw [← hh]
  obtain ⟨hoff, hstays⟩ := masks_stays hmask halloc
  cases hs.symm.trans (step_run hcur hmask.not_idle)
  have htrapped : (s.become (ttyStep s.tty s.current.point).1
      ⟨(ttyStep s.tty s.current.point).2, []⟩).Trapped := by
    refine ⟨?_, hoff, t, hne, (become_holds s _ _ hne).2 ht⟩
    rw [become_current]
  refine htrapped.deadlocked ?_ ?_ (.init rfl)
  · rw [become_current]
    exact ttyStep_proper (h.proper s.running) s.tty
  · rw [become_current]
    exact hstays

/-- The console does not lock up as long as log writes turn interrupts off only while the tty
spinlock is free; one that does so while the spinlock is held leads to a deadlock. -/
theorem console_not_deadlocked (hr : Reachable Start SparingStep s) :
    ¬ s.Deadlocked ∧ ∀ a s', s.step a = some s' →
      (s.Spares a ↔ ∀ d, Reachable (· = s') SparingStep d → ¬ d.Deadlocked) := by
  refine exact_guard (I := Sound) (fun _ h => h.not_deadlocked) (fun _ _ h hs => h.step hs)
    (fun _ a _ ha hs => ⟨a, ha, hs⟩) (fun _ _ _ h ha hs => ?_) (Sound.run hr)
  obtain ⟨d, hd, hdead⟩ := h.trapped ha hs
  exact ⟨d, hd, not_not.2 hdead⟩

def quietConsole : Console Nat :=
  let tty := ⟨⟨⟨false, false, true⟩, 0⟩, 0, .empty 0, .empty 0, ⟨false, 0, 0⟩⟩
  ⟨tty, fun _ => ⟨.idle none, []⟩, 0⟩

/-- Thread 0 waits for a key in `tty_read`, and the timer switches to thread 1. -/
def reading : List (ConsoleAction Nat) := [.read, .run, .interrupt, .switch 1]

theorem quietConsole_start : quietConsole.Start := ⟨rfl, fun _ => rfl⟩

/-- Thread 1 writes its first character, for which it allocates, while thread 0 holds the lock. -/
theorem console_not_deadlocked_reading : ∃ s : Console Nat,
    perform (guarded Spares step) quietConsole (reading ++ .log 65 :: List.replicate 22 .run) =
        some s ∧ ¬ s.Deadlocked ∧
      ∀ a s', s.step a = some s' →
        (s.Spares a ↔ ∀ d, Reachable (· = s') SparingStep d → ¬ d.Deadlocked) := by
  have hrun : (perform (guarded Spares step) quietConsole
      (reading ++ .log 65 :: List.replicate 22 .run)).isSome := by decide +kernel
  obtain ⟨s, hs⟩ := Option.isSome_iff_exists.1 hrun
  have hstart : Reachable Start SparingStep quietConsole := .init quietConsole_start
  exact ⟨s, hs, console_not_deadlocked
    (hstart.perform (fun _ a _ ha hs => ⟨a, ha, hs⟩) hs)⟩

/-- Thread 0 writes three characters to the log, for which `clog` grows to a capacity of four. -/
def greeted : List (ConsoleAction Nat) :=
  .log 65 :: List.replicate 22 .run ++ .log 66 :: List.replicate 36 .run ++
    .log 67 :: List.replicate 36 .run

/-- While thread 0 waits for a key, thread 1 writes the fourth character, and waits with interrupts
off for the lock of thread 0. -/
theorem console_deadlocked : quietConsole.Start ∧ ∃ s : Console Nat,
    perform step quietConsole (greeted ++ reading ++ .log 68 :: List.replicate 8 .run) = some s ∧
      s.Deadlocked ∧ ∀ a s', s.step a = some s' → s' = s := by
  have hrun : (perform step quietConsole
      (greeted ++ reading ++ .log 68 :: List.replicate 8 .run)).any fun s =>
        s.running = 1 ∧ s.threads 1 = ⟨.outLock 68, []⟩ ∧ s.tty.hw.interruptFlag = false ∧
          s.threads 0 = ⟨.readWait, []⟩ ∧ s.tty.spinlock = 1 := by decide +kernel
  obtain ⟨s, hs, hstate⟩ := (Option.any_eq_true _ _).1 hrun
  rw [decide_eq_true_eq] at hstate
  obtain ⟨hrunning, hthread, hoff, hholder, hword⟩ := hstate
  have hcur : s.current = ⟨.outLock 68, []⟩ := by rw [current, hrunning, hthread]
  have hdead : s.Deadlocked := by
    refine ⟨⟨?_, hoff, 0, ?_, ?_⟩, ?_⟩
    · rw [hcur]
    · rw [hrunning]
      decide
    · rw [Holds, hholder]
      trivial
    · rw [hcur]
      trivial
  exact ⟨quietConsole_start, s, hs, hdead, fun _ _ => hdead.stuck hword⟩

end Console
end Tupai
