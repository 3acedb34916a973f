import Mathlib.Logic.Function.Iterate
import Tupai.Hwlock
import Tupai.Lib.Transition

namespace Tupai
open Lib
set_option autoImplicit true

/-- The points of `lock()` and `unlock()` between two accesses, with what was read before. -/
inductive HwPoint where
  | idle
  | lockTest
  | lockSample
  | lockSave (enabled : Bool)
  | lockBranch
  | lockMask
  | lockMark
  | unlockTest
  | unlockBranch
  | unlockUnmask
  | unlockSample
  | unlockSave (enabled : Bool)
  | unlockClear
deriving DecidableEq

/-- One read, write or change of the interrupt flag. -/
def hwAccess (s : HwState) : HwPoint → HwState × HwPoint
  | .idle => (s, .idle)
  | .lockTest => (s, if !s.hwLocked then .lockSample else .idle)
  | .lockSample => (s, .lockSave (interruptEnabled s))
  | .lockSave enabled => ({ s with hwIntEnabled := enabled }, .lockBranch)
  | .lockBranch => (s, if s.hwIntEnabled then .lockMask else .lockMark)
  | .lockMask => (interruptEnable s false, .lockMark)
  | .lockMark => ({ s with hwLocked := true }, .idle)
  | .unlockTest => (s, if s.hwLocked then .unlockBranch else .idle)
  | .unlockBranch => (s, if s.hwIntEnabled then .unlockUnmask else .unlockSample)
  | .unlockUnmask => (interruptEnable s true, .unlockSample)
  | .unlockSample => (s, .unlockSave (interruptEnabled s))
  | .unlockSave enabled => ({ s with hwIntEnabled := enabled }, .unlockClear)
  | .unlockClear => ({ s with hwLocked := false }, .idle)

def hwAccesses (n : Nat) (r : HwState × HwPoint) : HwState × HwPoint :=
  (fun r => hwAccess r.1 r.2)^[n] r

/-- Without an interrupt the accesses of a call do what the call does. -/
theorem hwAccesses_lock (s : HwState) : hwAccesses 6 (s, .lockTest) = (hwLock s, .idle) := by
  obtain ⟨e, l, f⟩ := s
  cases e <;> cases l <;> cases f <;> rfl

theorem hwAccesses_unlock (s : HwState) : hwAccesses 6 (s, .unlockTest) = (hwUnlock s, .idle) := by
  obtain ⟨e, l, f⟩ := s
  cases e <;> cases l <;> cases f <;> rfl

/-- Code that calls `lock()` and `unlock()`: where it is in a call, and its open sections. -/
structure HwFrame where
  point : HwPoint
  depth : Nat
deriving DecidableEq

/-- One CPU: the thread, and the interrupt handlers that run on top of it, innermost first. -/
structure Cpu where
  hw : HwState
  thread : HwFrame
  handlers : List HwFrame
deriving DecidableEq

inductive CpuAction where
  | lock
  | unlock
  | access
  | interrupt
  | iret
deriving DecidableEq

/-- A handler makes properly nested calls, and returns with interrupts on. -/
def handlerStep (s : HwState) (h : HwFrame) (rest : List HwFrame) :
    CpuAction → Option (HwState × List HwFrame)
  | .lock => if h.point = .idle then some (s, ⟨.lockTest, h.depth + 1⟩ :: rest) else none
  | .unlock =>
    if h.point = .idle ∧ h.depth ≠ 0 then some (s, ⟨.unlockTest, h.depth - 1⟩ :: rest) else none
  | .access =>
    if h.point ≠ .idle then
      let (s, point) := hwAccess s h.point
      some (s, ⟨point, h.depth⟩ :: rest)
    else none
  | .iret => if h = ⟨.idle, 0⟩ then some (interruptEnable s true, rest) else none
  | .interrupt => none

theorem handlerStep_on {s : HwState} (hc : handlerStep s g rest a = some (s', rest')) :
    (s'.interruptFlag || !rest'.isEmpty) = true := by
  cases a with
  | lock | unlock | access =>
    simp only [handlerStep] at hc
    split_ifs at hc
    cases hc
    exact Bool.or_true _
  | interrupt => cases hc
  | iret =>
    simp only [handlerStep] at hc
    split_ifs at hc
    cases hc
    rfl

namespace Cpu

def threadStep (c : Cpu) : CpuAction → Option Cpu
  | .lock =>
    if c.thread = ⟨.idle, 0⟩ then some { c with thread := ⟨.lockTest, 1⟩ } else none
  | .unlock =>
    if c.thread = ⟨.idle, 1⟩ then some { c with thread := ⟨.unlockTest, 0⟩ } else none
  | .access =>
    if c.thread.point ≠ .idle then
      let (hw, point) := hwAccess c.hw c.thread.point
      some { c with hw := hw, thread := ⟨point, c.thread.depth⟩ }
    else none
  | _ => none

/-- An interrupt comes whenever the flag allows it; else the innermost code runs. -/
def step (c : Cpu) (a : CpuAction) : Option Cpu :=
  match a, c.handlers with
  | .interrupt, handlers =>
    if interruptEnabled c.hw then
      some { c with hw := interruptEnable c.hw false, handlers := ⟨.idle, 0⟩ :: handlers }
    else none
  | a, [] => c.threadStep a
  | a, h :: rest =>
    (handlerStep c.hw h rest a).map fun (hw, handlers) =>
      { c with hw := hw, handlers := handlers }

/-- Before any call: nothing is locked. -/
def Start (c : Cpu) : Prop := c.hw.hwLocked = false ∧ c.thread = ⟨.idle, 0⟩ ∧ c.handlers = []

/-- Interrupts are off from the return of the thread's `lock()` to the start of its `unlock()`. -/
def Masked (c : Cpu) : Prop :=
  c.thread.point = .idle → c.thread.depth ≠ 0 → c.hw.interruptFlag = false

/-- No handler locks between the thread's write of `hw_int_enabled` and its test. -/
def Spares (c : Cpu) (a : CpuAction) : Prop :=
  a = .lock → c.handlers ≠ [] → c.thread.point ≠ .lockBranch

instance (c : Cpu) (a : CpuAction) : Decidable (c.Spares a) :=
  inferInstanceAs (Decidable (_ → _ → _))

def SparingStep (c c' : Cpu) : Prop := ∃ a, c.Spares a ∧ c.step a = some c'

/-- Where a handler can be that found interrupts off and the lock free. -/
def Settled (s : HwState) (h : HwFrame) : Prop :=
  match h.point with
  | .idle => h.depth = 0 → s.hwLocked = false
  | .lockTest | .lockSample => h.depth ≠ 0
  | .lockSave enabled => h.depth ≠ 0 ∧ enabled = false
  | .lockBranch | .lockMark => h.depth ≠ 0 ∧ s.hwIntEnabled = false
  | .lockMask | .unlockUnmask => False
  | .unlockBranch => s.hwIntEnabled = false
  | .unlockSave enabled => enabled = false
  | .unlockTest | .unlockSample | .unlockClear => True

/-- The thread holds nothing, and so at most one handler runs, with interrupts off. -/
def Quiet (c : Cpu) : Prop :=
  match c.handlers with
  | [] => c.hw.hwLocked = false
  | [h] => HwOff c.hw ∧ Settled c.hw h
  | _ => False

def Closed (c : Cpu) : Prop :=
  c.handlers = [] ∧ c.hw.interruptFlag = false ∧ c.hw.hwLocked = true

/-- The invariant of runs whose handlers spare the thread. -/
def Sound (c : Cpu) : Prop :=
  match c.thread.point with
  | .idle => c.thread.depth = 0 ∧ c.Quiet ∨ c.thread.depth = 1 ∧ c.Closed
  | .lockTest | .lockSample => c.thread.depth = 1 ∧ c.Quiet
  | .lockSave enabled => c.thread.depth = 1 ∧ c.Quiet ∧
    enabled = (c.hw.interruptFlag || !c.handlers.isEmpty)
  | .lockBranch => c.thread.depth = 1 ∧ c.hw.hwLocked = false ∧
    (c.handlers = [] ∧ c.hw.hwIntEnabled = c.hw.interruptFlag ∨
      c.handlers = [⟨.idle, 0⟩] ∧ c.hw.hwIntEnabled = true ∧ c.hw.interruptFlag = false)
  | .lockMask => c.thread.depth = 1
  | .lockMark => c.thread.depth = 1 ∧ c.handlers = [] ∧ c.hw.interruptFlag = false
  | .unlockTest | .unlockBranch | .unlockUnmask => c.thread.depth = 0 ∧ c.Closed
  | .unlockSample | .unlockSave _ | .unlockClear => c.thread.depth = 0

variable {c : Cpu}

theorem step_cases (hc : c.step a = some c') :
    (a = .interrupt ∧ c.hw.interruptFlag = true ∧
      c' = { c with hw := interruptEnable c.hw false, handlers := ⟨.idle, 0⟩ :: c.handlers }) ∨
    (c.handlers = [] ∧ c.threadStep a = some c') ∨
    ∃ h rest hw handlers, c.handlers = h :: rest ∧
      handlerStep c.hw h rest a = some (hw, handlers) ∧
      c' = { c with hw := hw, handlers := handlers } := by
  unfold step at hc
  split at hc
  · refine .inl ⟨rfl, ?_⟩
    split_ifs at hc with hf
    exact ⟨hf, (Option.some.inj hc).symm⟩
  · exact .inr (.inl ⟨‹_›, hc⟩)
  · obtain ⟨⟨hw, handlers⟩, hh, rfl⟩ := Option.map_eq_some_iff.1 hc
    exact .inr (.inr ⟨_, _, hw, handlers, ‹_›, hh, rfl⟩)

theorem Quiet.interrupt (h : c.Quiet) (hf : c.hw.interruptFlag = true) :
    ({ c with hw := interruptEnable c.hw false, handlers := ⟨.idle, 0⟩ :: c.handlers }).Quiet := by
  rw [Quiet] at h
  split at h
  · rename_i hs
    rw [Quiet, hs]
    exact ⟨⟨rfl, fun hl => absurd (h.symm.trans hl) Bool.false_ne_true⟩, fun _ => h⟩
  · exact absurd (h.1.1.symm.trans hf) Bool.false_ne_true
  · cases h

theorem Sound.interrupt (h : c.Sound) (hf : c.hw.interruptFlag = true) :
    ({ c with hw := interruptEnable c.hw false, handlers := ⟨.idle, 0⟩ :: c.handlers }).Sound := by
  obtain ⟨hw, ⟨point, depth⟩, handlers⟩ := c
  cases point with
  | idle =>
    rcases h with ⟨hd, hq⟩ | ⟨_, _, hoff, _⟩
    · exact .inl ⟨hd, hq.interrupt hf⟩
    · exact absurd (hoff.symm.trans hf) Bool.false_ne_true
  | lockTest | lockSample => exact ⟨h.1, h.2.interrupt hf⟩
  | lockSave enabled =>
    refine ⟨h.1, h.2.1.interrupt hf, h.2.2.trans ?_⟩
    rw [hf]
    rfl
  | lockBranch =>
    obtain ⟨hd, hl, ⟨hs, he⟩ | ⟨_, _, hoff⟩⟩ := h
    · exact ⟨hd, hl, .inr ⟨congrArg _ hs, he.trans hf, rfl⟩⟩
    · exact absurd (hoff.symm.trans hf) Bool.false_ne_true
  | lockMask | unlockSample | unlockSave | unlockClear => exact h
  | lockMark => exact absurd (h.2.2.symm.trans hf) Bool.false_ne_true
  | unlockTest | unlockBranch | unlockUnmask =>
    exact absurd (h.2.2.1.symm.trans hf) Bool.false_ne_true

/-- What one access of such a handler keeps: it finds interrupts off, and saves that. -/
theorem Settled.access {s : HwState} {point : HwPoint} (h : Settled s ⟨point, depth⟩)
    (hoff : HwOff s) (hp : point ≠ .idle) :
    HwOff (hwAccess s point).1 ∧ Settled (hwAccess s point).1 ⟨(hwAccess s point).2, depth⟩ := by
  obtain ⟨hf, hl⟩ := hoff
  cases point with
  | idle => exact absurd rfl hp
  | lockTest =>
    refine ⟨⟨hf, hl⟩, ?_⟩
    cases hlocked : s.hwLocked with
    | false => simpa [hwAccess, hlocked, Settled] using h
    | true => simp [hwAccess, hlocked, Settled, show depth ≠ 0 from h]
  | lockSample => exact ⟨⟨hf, hl⟩, h, hf⟩
  | lockSave enabled => exact ⟨⟨hf, fun _ => h.2⟩, h⟩
  | lockBranch =>
    refine ⟨⟨hf, hl⟩, ?_⟩
    simp only [hwAccess, h.2]
    exact h
  | lockMark => exact ⟨⟨hf, fun _ => h.2⟩, fun hd => absurd hd h.1⟩
  | lockMask | unlockUnmask => cases h
  | unlockTest =>
    refine ⟨⟨hf, hl⟩, ?_⟩
    cases hlocked : s.hwLocked with
    | false => simp [hwAccess, hlocked, Settled]
    | true => simpa [hwAccess, hlocked, Settled] using hl hlocked
  | unlockBranch =>
    refine ⟨⟨hf, hl⟩, ?_⟩
    simp only [hwAccess, show s.hwIntEnabled = false from h]
    trivial
  | unlockSample => exact ⟨⟨hf, hl⟩, hf⟩
  | unlockSave enabled => exact ⟨⟨hf, fun _ => h⟩, trivial⟩
  | unlockClear => exact ⟨⟨hf, fun hc => Bool.noConfusion hc⟩, fun _ => rfl⟩

theorem Quiet.handlerStep (h : c.Quiet) (hs : c.handlers = g :: rest)
    (hc : handlerStep c.hw g rest a = some (s', rest')) :
    ({ c with hw := s', handlers := rest' }).Quiet := by
  rw [Quiet, hs] at h
  cases rest with
  | cons => cases h
  | nil =>
    obtain ⟨hoff, hsettled⟩ := h
    obtain ⟨point, depth⟩ := g
    cases a with
    | lock =>
      simp only [Tupai.handlerStep] at hc
      split_ifs at hc with hp
      cases hc
      exact ⟨hoff, Nat.succ_ne_zero depth⟩
    | unlock =>
      simp only [Tupai.handlerStep] at hc
      split_ifs at hc with hp
      cases hc
      exact ⟨hoff, trivial⟩
    | access =>
      simp only [Tupai.handlerStep] at hc
      split_ifs at hc with hp
      cases hc
      exact hsettled.access hoff hp
    | interrupt => cases hc
    | iret =>
      simp only [Tupai.handlerStep] at hc
      split_ifs at hc with hp
      cases hp
      cases hc
      exact hsettled rfl

theorem handlerStep_idle (ha : a ≠ .lock)
    (hc : handlerStep s ⟨.idle, 0⟩ rest a = some (s', rest')) :
    s' = interruptEnable s true ∧ rest' = rest := by
  cases a with
  | lock => exact absurd rfl ha
  | unlock | access | interrupt => cases hc
  | iret =>
    cases hc
    exact ⟨rfl, rfl⟩

theorem Sound.handlerStep (h : c.Sound) (hs : c.handlers = g :: rest) (ha : c.Spares a)
    (hc : handlerStep c.hw g rest a = some (s', rest')) :
    ({ c with hw := s', handlers := rest' }).Sound := by
  have hne : c.handlers ≠ [] := by
    rw [hs]
    exact List.cons_ne_nil g rest
  unfold Sound at h ⊢
  cases hp : c.thread.point with
  | idle =>
    rw [hp] at h
    rcases h with ⟨hd, hq⟩ | ⟨_, hnil, _⟩
    · exact .inl ⟨hd, hq.handlerStep hs hc⟩
    · exact absurd hnil hne
  | lockTest | lockSample =>
    rw [hp] at h
    exact ⟨h.1, h.2.handlerStep hs hc⟩
  | lockSave enabled =>
    rw [hp] at h
    obtain ⟨hd, hq, henabled⟩ := h
    refine ⟨hd, hq.handlerStep hs hc, ?_⟩
    rw [henabled, hs]
    exact (Bool.or_true _).trans (handlerStep_on hc).symm
  | lockBranch =>
    rw [hp] at h
    obtain ⟨hd, hl, ⟨hnil, _⟩ | ⟨hidle, he, _⟩⟩ := h
    · exact absurd hnil hne
    · cases hs.symm.trans hidle
      obtain ⟨rfl, rfl⟩ := handlerStep_idle (fun hlock => ha hlock hne hp) hc
      exact ⟨hd, hl, .inl ⟨rfl, he⟩⟩
  | lockMask | unlockSample | unlockSave | unlockClear =>
    rw [hp] at h
    exact h
  | lockMark =>
    rw [hp] at h
    exact absurd h.2.1 hne
  | unlockTest | unlockBranch | unlockUnmask =>
    rw [hp] at h
    exact absurd h.2.1 hne

theorem Sound.access {hw : HwState} {point : HwPoint} (h : Sound ⟨hw, ⟨point, depth⟩, []⟩)
    (hp : point ≠ .idle) :
    Sound ⟨(hwAccess hw point).1, ⟨(hwAccess hw point).2, depth⟩, []⟩ := by
  obtain ⟨e, l, f⟩ := hw
  cases point with
  | idle => exact absurd rfl hp
  | lockTest =>
    obtain ⟨hd, hl⟩ := h
    cases hl
    exact ⟨hd, rfl⟩
  | lockSample => exact ⟨h.1, h.2, (Bool.or_false f).symm⟩
  | lockSave enabled =>
    obtain ⟨hd, hl, he⟩ := h
    exact ⟨hd, hl, .inl ⟨rfl, he.trans (Bool.or_false f)⟩⟩
  | lockBranch =>
    obtain ⟨hd, hl, ⟨_, he⟩ | ⟨hnil, _⟩⟩ := h
    · cases e with
      | false => exact ⟨hd, rfl, he.symm⟩
      | true => exact hd
    · cases hnil
  | lockMask => exact ⟨h, rfl, rfl⟩
  | lockMark => exact .inr ⟨h.1, rfl, h.2.2, rfl⟩
  | unlockTest =>
    obtain ⟨hd, hclosed⟩ := h
    cases hclosed.2.2
    exact ⟨hd, hclosed⟩
  | unlockBranch =>
    cases e with
    | false => exact h.1
    | true => exact h
  | unlockUnmask => exact h.1
  | unlockSample | unlockSave => exact h
  | unlockClear => exact .inl ⟨h, rfl⟩

theorem Sound.threadStep (h : c.Sound) (hs : c.handlers = [])
    (hc : c.threadStep a = some c') : c'.Sound := by
  obtain ⟨hw, ⟨point, depth⟩, handlers⟩ := c
  cases hs
  cases a with
  | lock =>
    simp only [Cpu.threadStep] at hc
    split_ifs at hc with hp
    cases hp
    cases hc
    rcases h with ⟨_, hq⟩ | ⟨hd, _⟩
    · exact ⟨rfl, hq⟩
    · cases hd
  | unlock =>
    simp only [Cpu.threadStep] at hc
    split_ifs at hc with hp
    cases hp
    cases hc
    rcases h with ⟨hd, _⟩ | ⟨_, hclosed⟩
    · cases hd
    · exact ⟨rfl, hclosed⟩
  | access =>
    simp only [Cpu.threadStep] at hc
    split_ifs at hc with hp
    cases hc
    exact h.access hp
  | interrupt | iret => cases hc

theorem Sound.step (h : c.Sound) (ht : c.SparingStep c') : c'.Sound := by
  obtain ⟨a, ha, hc⟩ := ht
  rcases step_cases hc with ⟨_, hf, rfl⟩ | ⟨hs, hc⟩ | ⟨g, rest, _, _, hs, hg, rfl⟩
  · exact h.interrupt hf
  · exact h.threadStep hs hc
  · exact h.handlerStep hs ha hg

theorem Sound.start (h : c.Start) : c.Sound := by
  obtain ⟨hw, thread, handlers⟩ := c
  obtain ⟨hl, rfl, rfl⟩ := h
  exact .inl ⟨rfl, hl⟩

theorem Sound.run (hr : Reachable Start SparingStep c) : c.Sound := by
  apply hr.invariant
  · exact fun _ h => .start h
  · exact fun _ _ h ht => h.step ht

theorem Sound.masked (h : c.Sound) : c.Masked := by
  intro hp hd
  rw [Sound, hp] at h
  rcases h with ⟨hd', _⟩ | ⟨_, _, hoff, _⟩
  · exact absurd hd' hd
  · exact hoff

/-- A handler found the thread between its write of `hw_int_enabled` and its test. -/
def caught : Cpu := ⟨⟨true, false, false⟩, ⟨.lockBranch, 1⟩, [⟨.idle, 0⟩]⟩

/-- The only step that does not spare the thread is a handler's `lock()` there. -/
theorem Sound.caught (h : c.Sound) (ha : ¬ c.Spares a) : a = .lock ∧ c = caught := by
  rw [Spares] at ha
  push Not at ha
  obtain ⟨rfl, hne, hp⟩ := ha
  obtain ⟨⟨e, l, f⟩, ⟨point, depth⟩, handlers⟩ := c
  cases hp
  obtain ⟨hd, hl, ⟨hnil, _⟩ | ⟨hs, he, hf⟩⟩ := h
  · exact absurd hnil hne
  · cases hd
    cases hl
    cases hs
    cases he
    cases hf
    exact ⟨rfl, rfl⟩

/-- What follows on the handler's `lock()`: it returns, and the thread skips `cli`. -/
def skipsMask : List CpuAction :=
  List.replicate 5 .access ++ [.unlock] ++ List.replicate 5 .access ++ [.iret] ++
    List.replicate 2 .access

theorem caught_exposed (hc : caught.step .lock = some c') :
    perform (guarded Spares step) c' skipsMask = some ⟨⟨false, true, true⟩, ⟨.idle, 1⟩, []⟩ := by
  cases hc
  decide

/-- Interrupts are off in every critical section as long as no handler locks between the thread's
write of `hw_int_enabled` and its test; such a `lock()` leads to a section with interrupts on. -/
theorem hwlock_masked (hr : Reachable Start SparingStep c) :
    c.Masked ∧ ∀ a c', c.step a = some c' →
      (c.Spares a ↔ ∀ d, Reachable (· = c') SparingStep d → d.Masked) := by
  refine exact_guard (I := Sound) (fun _ h => h.masked) (fun _ _ h ht => h.step ht)
    (fun _ a _ ha hs => ⟨a, ha, hs⟩) (fun c a c' h ha hc => ?_) (Sound.run hr)
  obtain ⟨rfl, rfl⟩ := h.caught ha
  have hstart : Reachable (· = c') SparingStep c' := .init rfl
  have hexposed := hstart.perform (fun _ a _ ha hs => ⟨a, ha, hs⟩) (caught_exposed hc)
  exact ⟨_, hexposed, fun hm => absurd (hm rfl (by decide)) (by decide)⟩

def awake : Cpu := ⟨⟨false, false, true⟩, ⟨.idle, 0⟩, []⟩

/-- The thread locks up to the test of `hw_int_enabled`. -/
def uptoBranch : List CpuAction := .lock :: List.replicate 3 .access

theorem caught_reachable : Reachable Start SparingStep caught := by
  have hstart : Reachable Start SparingStep awake := .init ⟨rfl, rfl, rfl⟩
  have hcaught : perform (guarded Spares step) awake (uptoBranch ++ [.interrupt]) =
      some caught := by decide
  exact hstart.perform (fun _ a _ ha hs => ⟨a, ha, hs⟩) hcaught

theorem hwlock_masked_caught : caught.Masked ∧ ∀ a c', caught.step a = some c' →
    (caught.Spares a ↔ ∀ d, Reachable (· = c') SparingStep d → d.Masked) :=
  hwlock_masked caught_reachable

theorem hwlock_not_masked : awake.Start ∧ ∃ c, perform step awake
    (uptoBranch ++ [.interrupt, .lock] ++ skipsMask) = some c ∧ ¬ c.Masked := by
  refine ⟨⟨rfl, rfl, rfl⟩, ⟨⟨false, true, true⟩, ⟨.idle, 1⟩, []⟩, by decide, fun h => ?_⟩
  exact absurd (h rfl (by decide)) (by decide)

end Cpu
end Tupai
