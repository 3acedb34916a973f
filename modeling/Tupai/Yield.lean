import Tupai.Switch

namespace Tupai
open Lib
set_option autoImplicit true

/-- What `scheduler_preempt` does after the increment. -/
def Procs.dispatch (s : Procs) (newStack : Nat) : Dispatch × Procs :=
  match s.getState s.ctask.thread with
  | .NEW =>
    let s := s.setState s.ctask.thread .ACTIVE
    (.bootstrap (s.getEntry s.ctask.thread) (s.getStack s.ctask.thread), s)
  | _ => (.resume newStack, s)

/-- Where code is: outside of a YIELD call, or in one before a step of it. -/
inductive YieldPoint where
  | running
  | entered (oldStack : Nat)
  | saved (oldStack : Nat)
  | incremented (oldStack : Nat)
  | loaded (oldStack : Nat) (thread : Int) (newStack : Nat)
deriving DecidableEq

namespace YieldPoint

def base : YieldPoint → Option Nat
  | .running => none
  | .entered oldStack | .saved oldStack | .incremented oldStack | .loaded oldStack _ _ =>
    some oldStack

/-- Where the timer does no harm: not between the save and the return, unless the yielding
thread has loaded its own stack. -/
def Interruptible (thread : Int) : YieldPoint → Prop
  | .running | .entered _ => True
  | .saved _ | .incremented _ => False
  | .loaded _ chosen _ => chosen = thread

instance (thread : Int) : (p : YieldPoint) → Decidable (p.Interruptible thread)
  | .running | .entered _ => isTrue trivial
  | .saved _ | .incremented _ => isFalse id
  | .loaded _ chosen _ => inferInstanceAs (Decidable (chosen = thread))

end YieldPoint

structure Context where
  thread : Int
  point : YieldPoint
deriving DecidableEq

/-- A thread resumed at a stack pointer, and the one of its most recent suspension. -/
structure Resumption where
  thread : Int
  pointer : Nat
  recent : Option Nat
deriving DecidableEq

/-- A run of one CPU: the code that it executes, the code suspended at each stack pointer, and
where each thread was suspended last. -/
structure YieldRun where
  procs : Procs
  cpu : Option Context
  frames : Nat → Option Context
  suspended : Int → Option Nat
  resumptions : List Resumption

inductive YieldAction where
  | create (leftover : Proc) (name : Chars) (dir : Int)
  | spawnThread (this : Int) (entry nstack : Nat)
  | enter (oldStack : Nat)
  | save
  | increment (fuel : Nat)
  | load
  | finish
  | timer (fuel oldStack : Nat)

namespace YieldRun

/-- At boot the CPU runs code that is no thread. -/
def boot : YieldRun :=
  ⟨.boot, some ⟨ID_INVALID, .running⟩, fun _ => none, fun _ => none, []⟩

/-- Stack pointers of code are on its own stack, below the frame of its YIELD call. -/
def onStack (r : YieldRun) (c : Context) (pointer : Nat) : Bool :=
  (r.frames pointer).all (fun c' => c'.thread = c.thread) && c.point.base.all (fun b => pointer < b)

/-- A new thread starts to run, any other one continues with what was suspended. -/
def proceed (r : YieldRun) (procs : Procs) (thread : Int) : Dispatch → YieldRun
  | .bootstrap _ _ => { r with procs := procs, cpu := some ⟨procs.ctask.thread, .running⟩ }
  | .resume pointer => { r with
      procs := procs
      cpu := r.frames pointer
      resumptions := ⟨thread, pointer, r.suspended thread⟩ :: r.resumptions }

def timer (r : YieldRun) (c : Context) (fuel oldStack : Nat) : Option YieldRun :=
  if r.onStack c oldStack then
    (r.procs.schedulerPreempt fuel oldStack).map fun (d, procs) =>
      { r with
        frames := Function.update r.frames oldStack (some c)
        suspended := Function.update r.suspended c.thread (some oldStack)
      }.proceed procs procs.ctask.thread d
  else none

def step (r : YieldRun) (a : YieldAction) : Option YieldRun :=
  match r.cpu, a with
  | some ⟨_, .running⟩, .create leftover name dir =>
    some { r with procs := (r.procs.create leftover name dir).2 }
  | some ⟨_, .running⟩, .spawnThread this entry nstack =>
    some { r with procs := (r.procs.spawnThread this entry nstack).2 }
  | some ⟨thread, .running⟩, .enter oldStack =>
    if r.onStack ⟨thread, .running⟩ oldStack then
      some { r with
        cpu := some ⟨thread, .entered oldStack⟩
        frames := Function.update r.frames oldStack (some ⟨thread, .running⟩) }
    else none
  | some ⟨thread, .entered oldStack⟩, .save =>
    some { r with procs := r.procs.saveStack oldStack, cpu := some ⟨thread, .saved oldStack⟩ }
  | some ⟨thread, .saved oldStack⟩, .increment fuel =>
    (r.procs.schedulerIncrement fuel).map fun procs =>
      { r with procs := procs, cpu := some ⟨thread, .incremented oldStack⟩ }
  | some ⟨thread, .incremented oldStack⟩, .load =>
    let newStack := r.procs.getStack r.procs.ctask.thread
    some { r with cpu := some ⟨thread, .loaded oldStack r.procs.ctask.thread newStack⟩ }
  | some ⟨thread, .loaded oldStack chosen newStack⟩, .finish =>
    let (d, procs) := r.procs.dispatch newStack
    some ({ r with suspended := Function.update r.suspended thread (some oldStack) }.proceed
      procs chosen d)
  | some c, .timer fuel oldStack => r.timer c fuel oldStack
  | _, _ => none

/-- Every thread was resumed where it was suspended most recently. -/
def Restored (r : YieldRun) : Prop := ∀ e ∈ r.resumptions, e.recent = some e.pointer

/-- The timer comes outside of the steps of a YIELD, there is a thread to switch to, and a slot for
every new one. -/
def Undisturbed (r : YieldRun) : YieldAction → Prop
  | .spawnThread this _ _ =>
    r.procs.procTable.get this ≠ none → r.procs.threadTable.size < HASHTABLE_CAPACITY
  | .increment _ => r.procs.held ≠ []
  | .timer .. => r.procs.held ≠ [] ∧ ∀ c, r.cpu = some c → c.point.Interruptible c.thread
  | _ => True

instance (r : YieldRun) : (a : YieldAction) → Decidable (r.Undisturbed a)
  | .spawnThread .. => inferInstanceAs (Decidable (_ → _))
  | .increment _ => inferInstanceAs (Decidable (_ ≠ _))
  | .timer .. =>
    inferInstanceAs (Decidable (_ ∧ ∀ c ∈ r.cpu, c.point.Interruptible c.thread))
  | .create .. | .enter _ | .save | .load | .finish => isTrue trivial

def UndisturbedStep (r r' : YieldRun) : Prop := ∃ a, r.Undisturbed a ∧ r.step a = some r'

end YieldRun

/-- Without a timer the steps of YIELD are a call of `scheduler_preempt`. -/
theorem Procs.schedulerPreempt_eq (s : Procs) (fuel oldStack : Nat) :
    s.schedulerPreempt fuel oldStack = ((s.saveStack oldStack).schedulerIncrement fuel).map
      fun s => s.dispatch (s.getStack s.ctask.thread) := by
  rw [schedulerPreempt]
  cases (s.saveStack oldStack).schedulerIncrement fuel with
  | none => rfl
  | some s₁ =>
    rw [Option.map_some, dispatch]
    cases h : s₁.getState s₁.ctask.thread <;> simp only [h]

theorem Procs.dispatch_ctask (s : Procs) (newStack : Nat) :
    (s.dispatch newStack).2.ctask = s.ctask := by
  rw [dispatch]
  cases s.getState s.ctask.thread <;> rfl

/-- What is suspended can be continued: at a point where the timer does no harm, with the frame
of its YIELD call in place. -/
structure Continuable (frames : Nat → Option Context) (c : Context) : Prop where
  point : c.point.Interruptible c.thread
  loaded : ∀ oldStack chosen newStack, c.point = .loaded oldStack chosen newStack →
    newStack = oldStack
  base : ∀ b, c.point.base = some b → frames b = some ⟨c.thread, .running⟩

/-- A thread was suspended at a stack pointer, where it can be continued. -/
structure LeftAt (frames : Nat → Option Context) (suspended : Int → Option Nat) (t : Int)
    (pointer : Nat) : Prop where
  recent : suspended t = some pointer
  frame : ∃ c, frames pointer = some c ∧ c.thread = t ∧ Continuable frames c

/-- What the steps of a YIELD have done so far to the state that it was entered in. -/
def Pending (s : Procs) (q : SwitchRun) (thread : Int) : YieldPoint → Prop
  | .running | .entered _ => s = q.procs
  | .saved oldStack => s = q.procs.saveStack oldStack
  | .incremented oldStack => q.procs.held ≠ [] ∧
    ∃ fuel, (q.procs.saveStack oldStack).schedulerIncrement fuel = some s
  | .loaded oldStack chosen newStack =>
    chosen = thread ∧ newStack = oldStack ∧ s = q.procs ∨
      chosen ≠ thread ∧ chosen = s.ctask.thread ∧ newStack = s.getStack chosen ∧
        q.procs.held ≠ [] ∧ ∃ fuel, (q.procs.saveStack oldStack).schedulerIncrement fuel = some s

/-- The run with YIELD calls in steps follows a run in which they are calls of
`scheduler_preempt`. -/
structure Mirrors (r : YieldRun) (q : SwitchRun) (c : Context) : Prop where
  cpu : r.cpu = some c
  restored : r.Restored
  current : c.thread = q.procs.ctask.thread
  pending : Pending r.procs q c.thread c.point
  base : ∀ b, c.point.base = some b → r.frames b = some ⟨c.thread, .running⟩
  left : ∀ t ∈ q.selections, t ≠ c.thread → LeftAt r.frames r.suspended t (q.saved t)

variable {r : YieldRun} {q : SwitchRun} {c : Context}

theorem onStack_spec (h : r.onStack c sp) :
    (∀ c', r.frames sp = some c' → c'.thread = c.thread) ∧ ∀ b, c.point.base = some b → sp < b := by
  rw [YieldRun.onStack, Bool.and_eq_true] at h
  refine ⟨fun c' hc => ?_, fun b hb => ?_⟩
  · have hall := h.1
    rw [hc] at hall
    simpa using hall
  · have hall := h.2
    rw [hb] at hall
    simpa using hall

theorem LeftAt.write (h : LeftAt r.frames suspended t p) (hsp : r.onStack c sp)
    (ht : t ≠ c.thread) : LeftAt (Function.update r.frames sp (some c₁)) suspended t p := by
  have hne (b : Nat) (c' : Context) (hb : r.frames b = some c') (hc : c'.thread = t) : b ≠ sp := by
    rintro rfl
    exact ht (hc.symm.trans ((onStack_spec hsp).1 c' hb))
  obtain ⟨c', hc', hthread, hready⟩ := h.frame
  refine ⟨h.recent, c', ?_, hthread, hready.point, hready.loaded, fun b hb => ?_⟩
  · rw [Function.update_of_ne (hne p c' hc' hthread), hc']
  · have hframe := hready.base b hb
    rw [Function.update_of_ne (hne b _ hframe hthread), hframe]

theorem SwitchOk.mem_selections (h : SwitchOk q) (hc : q.procs.ctask.thread ≠ ID_INVALID) :
    q.procs.ctask.thread ∈ q.selections := by
  have hcur := h.current
  rw [Procs.running_of_ne hc] at hcur
  exact List.mem_of_mem_take (hcur ▸ List.mem_cons_self)

theorem SwitchOk.savedNow_of_mem (h : SwitchOk q) (ht : t ∈ q.selections) (oldStack : Nat) :
    q.savedNow oldStack = Function.update q.saved q.procs.ctask.thread oldStack := by
  have hcur := h.current
  rw [SwitchRun.savedNow]
  cases hs : q.selections with
  | nil =>
    rw [hs] at ht
    cases ht
  | cons current rest =>
    have hc : q.procs.ctask.thread ≠ ID_INVALID := by
      intro hc
      rw [hs, Procs.running_of_eq hc] at hcur
      cases hcur
    rw [hs, Procs.running_of_ne hc] at hcur
    rw [(List.cons.inj hcur).1]

theorem SwitchOk.current_not_new (h : SwitchOk q) :
    q.procs.getState q.procs.ctask.thread ≠ .NEW := by
  by_cases hc : q.procs.ctask.thread = ID_INVALID
  · have hnone : q.procs.threadTable.get q.procs.ctask.thread = none := by
      by_contra hne
      have hpos := (h.ok.threadKeys _ hne).1
      rw [hc] at hpos
      exact absurd hpos (by decide)
    rw [Procs.getState, hnone]
    exact ThreadState.noConfusion
  · have hmem := h.mem_selections hc
    obtain ⟨th, hget, hrec⟩ := h.records _ (h.selected _ hmem)
    rw [Procs.getState, hget]
    intro hnew
    cases hnew.symm.trans (hrec.active hmem)

/-- With the current thread suspended, every thread that has run is. -/
theorem Mirrors.suspend (h : Mirrors r q c) (hq : SwitchOk q)
    {frames : Nat → Option Context} {suspended : Int → Option Nat}
    (hcur : LeftAt frames suspended c.thread sp)
    (hleft : ∀ t p, t ≠ c.thread → LeftAt r.frames r.suspended t p → LeftAt frames suspended t p) :
    ∀ t ∈ q.selections, LeftAt frames suspended t (q.savedNow sp t) := by
  intro t ht
  rw [hq.savedNow_of_mem ht, ← h.current]
  by_cases he : t = c.thread
  · rw [he, Function.update_self]
    exact hcur
  · rw [Function.update_of_ne he]
    exact hleft t _ he (h.left t ht he)

theorem Mirrors.switch (hq : SwitchOk q) (hne : q.procs.held ≠ [])
    (hleft : ∀ t ∈ q.selections, LeftAt r.frames r.suspended t (q.savedNow sp t))
    (hr : r.Restored) (hp : q.procs.schedulerPreempt fuel sp = some (d, s)) :
    ∃ c', Mirrors (r.proceed s s.ctask.thread d)
      ⟨s, q.made, s.ctask.thread :: q.selections, q.savedNow sp⟩ c' := by
  have hrest : ∀ t ∈ s.ctask.thread :: q.selections, t ≠ s.ctask.thread →
      LeftAt r.frames r.suspended t (q.savedNow sp t) :=
    fun t ht hc => hleft t ((List.mem_cons.1 ht).resolve_left hc)
  by_cases hmem : s.ctask.thread ∈ q.selections
  · cases hq.later hne hp hmem
    obtain ⟨hrecent, c', hc', hthread, hready⟩ := hleft _ hmem
    refine ⟨c', hc', ?_, hthread, ?_, hready.base, ?_⟩
    · exact List.forall_mem_cons.2 ⟨hrecent, hr⟩
    · have hpoint := hready.point
      cases hpt : c'.point with
      | running | entered => exact rfl
      | saved | incremented =>
        rw [hpt] at hpoint
        cases hpoint
      | loaded oldStack chosen newStack =>
        rw [hpt] at hpoint
        exact .inl ⟨hpoint, hready.loaded _ _ _ hpt, rfl⟩
    · rw [hthread]
      exact hrest
  · obtain ⟨entry, stackBlock, _, rfl⟩ := hq.first hne hp hmem
    exact ⟨⟨s.ctask.thread, .running⟩, rfl, hr, rfl, rfl, (fun _ hb => by cases hb), hrest⟩

theorem Mirrors.boot : Mirrors .boot .boot ⟨ID_INVALID, .running⟩ where
  cpu := rfl
  restored := fun _ he => absurd he List.not_mem_nil
  current := rfl
  pending := rfl
  base := fun _ hb => by cases hb
  left := fun _ ht => absurd ht List.not_mem_nil

theorem Mirrors.spawnThread (h : Mirrors r q ⟨thread, .running⟩) (hq : SwitchOk q)
    (hroom : r.procs.procTable.get this ≠ none → r.procs.threadTable.size < HASHTABLE_CAPACITY)
    (entry nstack : Nat) : ∃ q', SwitchStep q q' ∧
      Mirrors { r with procs := (r.procs.spawnThread this entry nstack).2 } q'
        ⟨thread, .running⟩ := by
  have hs : r.procs = q.procs := h.pending
  rw [hs] at hroom ⊢
  cases hp : q.procs.procTable.get this with
  | none =>
    refine ⟨_, .noProcess q this entry nstack hp, { h with pending := rfl, current := ?_ }⟩
    rw [Procs.spawnThread_none hp]
    exact h.current
  | some proc =>
    have hne : q.procs.procTable.get this ≠ none := by
      rw [hp]
      exact Option.some_ne_none proc
    refine ⟨_, .spawnThread q this entry nstack hne ?_, { h with pending := rfl, current := ?_ }⟩
    · rw [← hq.size]
      exact hroom hne
    · rw [Procs.spawnThread_some hp]
      exact h.current

theorem Mirrors.enter (h : Mirrors r q ⟨thread, .running⟩)
    (hsp : r.onStack ⟨thread, .running⟩ oldStack) :
    Mirrors { r with
      cpu := some ⟨thread, .entered oldStack⟩
      frames := Function.update r.frames oldStack (some ⟨thread, .running⟩) } q
      ⟨thread, .entered oldStack⟩ where
  cpu := rfl
  restored := h.restored
  current := h.current
  pending := h.pending
  base := by
    rintro _ ⟨⟩
    exact Function.update_self ..
  left := fun t ht hne => (h.left t ht hne).write hsp hne

theorem Mirrors.save (h : Mirrors r q ⟨thread, .entered oldStack⟩) :
    Mirrors { r with
      procs := r.procs.saveStack oldStack
      cpu := some ⟨thread, .saved oldStack⟩ } q ⟨thread, .saved oldStack⟩ where
  cpu := rfl
  restored := h.restored
  current := h.current
  pending := congrArg (Procs.saveStack · oldStack) h.pending
  base := h.base
  left := h.left

theorem Mirrors.increment (h : Mirrors r q ⟨thread, .saved oldStack⟩)
    (hne : r.procs.held ≠ []) (hi : r.procs.schedulerIncrement fuel = some s) :
    Mirrors { r with procs := s, cpu := some ⟨thread, .incremented oldStack⟩ } q
      ⟨thread, .incremented oldStack⟩ where
  cpu := rfl
  restored := h.restored
  current := h.current
  pending := by
    have hs : r.procs = q.procs.saveStack oldStack := h.pending
    rw [hs] at hi hne
    rw [Procs.saveStack_held] at hne
    exact ⟨hne, fuel, hi⟩
  base := h.base
  left := h.left

/-- The yielding thread is itself the next one: the switch is done, but for the return. -/
theorem Mirrors.load_own (h : Mirrors r q ⟨thread, .incremented oldStack⟩) (hq : SwitchOk q)
    (hown : r.procs.ctask.thread = thread) : ∃ q', SwitchStep q q' ∧
      Mirrors { r with cpu := some ⟨thread, .loaded oldStack r.procs.ctask.thread
          (r.procs.getStack r.procs.ctask.thread)⟩ } q'
        ⟨thread, .loaded oldStack r.procs.ctask.thread
          (r.procs.getStack r.procs.ctask.thread)⟩ := by
  obtain ⟨hne, fuel, hi⟩ := h.pending
  have hsw := hq.increment hne hi
  have hcur : q.procs.ctask.thread = r.procs.ctask.thread := h.current.symm.trans hown.symm
  have hmem : r.procs.ctask.thread ∈ q.selections := by
    rw [← hcur]
    apply hq.mem_selections
    rw [hcur]
    intro hc
    have hpos := (hq.lt_counter hsw.selected).1
    rw [hc] at hpos
    exact absurd hpos (by decide)
  obtain ⟨th, hget, hrec⟩ := hq.chosen hsw
  have hp : q.procs.schedulerPreempt fuel oldStack =
      some (.resume (r.procs.getStack r.procs.ctask.thread), r.procs) := by
    rw [Procs.schedulerPreempt_eq, hi, Option.map_some, Procs.dispatch, Procs.getState, hget]
    simp only [hrec.active hmem]
  have hstack : r.procs.getStack r.procs.ctask.thread = oldStack := by
    have hlater := Dispatch.resume.inj (hq.later hne hp hmem)
    rw [hlater, hq.savedNow_of_mem hmem, hcur, Function.update_self]
  refine ⟨_, .preempt q fuel oldStack hne hp, rfl, h.restored, hown.symm, .inl ⟨hown, hstack, rfl⟩,
    h.base, fun t ht hc => ?_⟩
  have hmem : t ∈ q.selections := (List.mem_cons.1 ht).resolve_left fun he => hc (he.trans hown)
  have hsaved : q.savedNow oldStack t = q.saved t := by
    rw [hq.savedNow_of_mem hmem, hcur, hown]
    exact Function.update_of_ne hc ..
  change LeftAt r.frames r.suspended t (q.savedNow oldStack t)
  rw [hsaved]
  exact h.left t hmem hc

theorem Mirrors.load_other (h : Mirrors r q ⟨thread, .incremented oldStack⟩)
    (hother : r.procs.ctask.thread ≠ thread) :
    Mirrors { r with cpu := some ⟨thread, .loaded oldStack r.procs.ctask.thread
        (r.procs.getStack r.procs.ctask.thread)⟩ } q
      ⟨thread, .loaded oldStack r.procs.ctask.thread
        (r.procs.getStack r.procs.ctask.thread)⟩ where
  cpu := rfl
  restored := h.restored
  current := h.current
  pending := .inr ⟨hother, rfl, rfl, h.pending⟩
  base := h.base
  left := h.left

theorem Mirrors.yielded (h : Mirrors r q ⟨thread, point⟩) (hq : SwitchOk q)
    (hb : point.base = some oldStack) (t : Int) (ht : t ∈ q.selections) :
    LeftAt r.frames (Function.update r.suspended thread (some oldStack)) t
      (q.savedNow oldStack t) := by
  refine h.suspend hq ⟨Function.update_self .., _, h.base _ hb, rfl, trivial, ?_, ?_⟩ ?_ t ht
  · exact fun _ _ _ hp => by cases hp
  · exact fun _ hp => by cases hp
  · exact fun t p hne hleft => { hleft with
      recent := (Function.update_of_ne hne ..).trans hleft.recent }

theorem Mirrors.finish (h : Mirrors r q ⟨thread, .loaded oldStack chosen newStack⟩)
    (hq : SwitchOk q) (hd : r.procs.dispatch newStack = (d, s)) :
    ∃ q', (q' = q ∨ SwitchStep q q') ∧ ∃ c', Mirrors
      ({ r with suspended := Function.update r.suspended thread (some oldStack) }.proceed
        s chosen d) q' c' := by
  have hleft := h.yielded hq rfl
  rcases h.pending with ⟨rfl, rfl, hs⟩ | ⟨_, rfl, rfl, hne, fuel, hi⟩
  · have hnew : r.procs.getState r.procs.ctask.thread ≠ .NEW := by
      rw [hs]
      exact hq.current_not_new
    have hresume : (d, s) = (.resume newStack, r.procs) := by
      rw [← hd, Procs.dispatch]
      cases hst : r.procs.getState r.procs.ctask.thread with
      | NEW => exact absurd hst hnew
      | ACTIVE | WAITING | DEAD => rfl
    cases hresume
    refine ⟨q, .inl rfl, ⟨chosen, .running⟩, h.base _ rfl, ?_, h.current, hs, ?_, fun t ht hc => ?_⟩
    · exact List.forall_mem_cons.2 ⟨Function.update_self .., h.restored⟩
    · exact fun _ hb => by cases hb
    · have hkeep := hleft t ht
      rw [hq.savedNow_of_mem ht, ← h.current, Function.update_of_ne hc] at hkeep
      exact hkeep
  · have hp : q.procs.schedulerPreempt fuel oldStack = some (d, s) := by
      rw [Procs.schedulerPreempt_eq, hi, Option.map_some, hd]
    have hctask : s.ctask = r.procs.ctask := by
      rw [← r.procs.dispatch_ctask (r.procs.getStack r.procs.ctask.thread), hd]
    obtain ⟨c', hmirrors⟩ := Mirrors.switch (r := { r with
      suspended := Function.update r.suspended thread (some oldStack) }) hq hne hleft h.restored hp
    refine ⟨_, .inr (.preempt q fuel oldStack hne hp), c', ?_⟩
    rwa [← hctask]

/-- Where the timer does no harm no switch is under way. -/
theorem Mirrors.settled (h : Mirrors r q c) (hc : c.point.Interruptible c.thread) :
    r.procs = q.procs ∧ ∀ oldStack chosen newStack, c.point = .loaded oldStack chosen newStack →
      newStack = oldStack := by
  have hpending := h.pending
  obtain ⟨thread, point⟩ := c
  cases point with
  | running | entered => exact ⟨hpending, fun _ _ _ hp => by cases hp⟩
  | saved | incremented => cases hc
  | loaded oldStack chosen newStack =>
    rcases hpending with ⟨_, hn, hs⟩ | ⟨hne, _⟩
    · refine ⟨hs, ?_⟩
      rintro _ _ _ ⟨⟩
      exact hn
    · exact absurd hc hne

theorem Mirrors.timer (h : Mirrors r q c) (hq : SwitchOk q) (hne : r.procs.held ≠ [])
    (hc : c.point.Interruptible c.thread) (ht : r.timer c fuel sp = some r') :
    ∃ q', SwitchStep q q' ∧ ∃ c', Mirrors r' q' c' := by
  obtain ⟨hs, hloaded⟩ := h.settled hc
  rw [YieldRun.timer] at ht
  split_ifs at ht with hsp
  obtain ⟨⟨d, s⟩, hp, rfl⟩ := Option.map_eq_some_iff.1 ht
  rw [hs] at hne hp
  refine ⟨_, .preempt q fuel sp hne hp, Mirrors.switch (r := { r with
    frames := Function.update r.frames sp (some c)
    suspended := Function.update r.suspended c.thread (some sp) }) hq hne ?_ h.restored hp⟩
  refine h.suspend hq ⟨Function.update_self .., c, Function.update_self .., rfl, hc, hloaded, ?_⟩ ?_
  · intro b hb
    have hne' : b ≠ sp := Nat.ne_of_gt ((onStack_spec hsp).2 b hb)
    exact (Function.update_of_ne hne' ..).trans (h.base b hb)
  · intro t p hne' hleft
    have hkeep : LeftAt (Function.update r.frames sp (some c)) _ t p := hleft.write hsp hne'
    exact { hkeep with recent := (Function.update_of_ne hne' ..).trans hkeep.recent }

theorem Mirrors.step (h : Mirrors r q c) (hq : SwitchOk q) (ht : r.UndisturbedStep r') :
    (∃ c', Mirrors r' q c') ∨ ∃ q', SwitchStep q q' ∧ ∃ c', Mirrors r' q' c' := by
  obtain ⟨a, ha, hs⟩ := ht
  obtain ⟨thread, point⟩ := c
  unfold YieldRun.step at hs
  rw [h.cpu] at hs
  cases a with
  | create leftover name dir =>
    cases point with
    | running =>
      cases hs
      refine .inr ⟨_, .create q leftover name dir, _, { h with cpu := rfl, pending := ?_ }⟩
      exact congrArg (fun s => (Procs.create s leftover name dir).2) h.pending
    | entered | saved | incremented | loaded => cases hs
  | spawnThread this entry nstack =>
    cases point with
    | running =>
      cases hs
      obtain ⟨q', hstep, hmirrors⟩ := h.spawnThread hq ha entry nstack
      rw [h.cpu] at hmirrors
      exact .inr ⟨q', hstep, _, hmirrors⟩
    | entered | saved | incremented | loaded => cases hs
  | enter oldStack =>
    cases point with
    | running =>
      simp only at hs
      split_ifs at hs with hsp
      cases hs
      exact .inl ⟨_, h.enter hsp⟩
    | entered | saved | incremented | loaded => cases hs
  | save =>
    cases point with
    | entered oldStack =>
      cases hs
      exact .inl ⟨_, h.save⟩
    | running | saved | incremented | loaded => cases hs
  | increment fuel =>
    cases point with
    | saved oldStack =>
      obtain ⟨s, hi, rfl⟩ := Option.map_eq_some_iff.1 hs
      exact .inl ⟨_, h.increment ha hi⟩
    | running | entered | incremented | loaded => cases hs
  | load =>
    cases point with
    | incremented oldStack =>
      cases hs
      by_cases hown : r.procs.ctask.thread = thread
      · obtain ⟨q', hstep, hmirrors⟩ := h.load_own hq hown
        exact .inr ⟨q', hstep, _, hmirrors⟩
      · exact .inl ⟨_, h.load_other hown⟩
    | running | entered | saved | loaded => cases hs
  | finish =>
    cases point with
    | loaded oldStack chosen newStack =>
      cases hs
      obtain ⟨q', rfl | hstep, c', hmirrors⟩ := h.finish hq rfl
      · exact .inl ⟨c', hmirrors⟩
      · exact .inr ⟨q', hstep, c', hmirrors⟩
    | running | entered | saved | incremented => cases hs
  | timer fuel sp =>
    have htimer : r.timer ⟨thread, point⟩ fuel sp = some r' := by
      cases point <;> exact hs
    exact .inr (h.timer hq ha.1 (ha.2 _ h.cpu) htimer)

/-- In every run in which the timer comes outside of the steps of a YIELD, every thread is resumed
where it was suspended most recently. -/
theorem yield_restores (hr : Reachable (· = YieldRun.boot) YieldRun.UndisturbedStep r) :
    r.Restored := by
  have hsim : ∃ q, Reachable (· = SwitchRun.boot) SwitchStep q ∧ ∃ c, Mirrors r q c := by
    apply hr.simulate
    · rintro _ rfl
      exact ⟨.boot, rfl, _, .boot⟩
    · rintro _ _ q hq ⟨c, h⟩ ht
      exact h.step (.run hq) ht
  obtain ⟨_, _, _, h⟩ := hsim
  exact h.restored

/-- Two threads that have both run, with the first one running again. -/
def bothRan : List YieldAction :=
  [.create default [] 0, .spawnThread 1 7 100, .spawnThread 1 9 5000, .timer 1 20, .timer 1 2000,
    .timer 1 6000]

theorem yield_restores_bothRan : ∃ r : YieldRun,
    Lib.perform (guarded YieldRun.Undisturbed YieldRun.step) .boot
      (bothRan ++ [.enter 1900, .save, .increment 1, .load, .finish]) = some r ∧
    ⟨1, 6000, some 6000⟩ ∈ r.resumptions ∧ r.Restored := by
  have hrun : (Lib.perform (guarded YieldRun.Undisturbed YieldRun.step) .boot
      (bothRan ++ [.enter 1900, .save, .increment 1, .load, .finish])).any fun r =>
        ⟨1, 6000, some 6000⟩ ∈ r.resumptions := by decide +kernel
  obtain ⟨r, hr, hmem⟩ := (Option.any_eq_true _ _).1 hrun
  rw [decide_eq_true_eq] at hmem
  have hboot : Reachable (· = YieldRun.boot) YieldRun.UndisturbedStep .boot := .init rfl
  exact ⟨r, hr, hmem, yield_restores (hboot.perform (fun _ a _ ha hs => ⟨a, ha, hs⟩) hr)⟩

/-- The timer fires between the increment and the load, and overwrites the stack of the thread
that was chosen. -/
theorem yield_not_restores : ∃ r : YieldRun,
    Lib.perform YieldRun.step .boot (bothRan ++ [.enter 1900, .save, .increment 1, .timer 1 1800]) =
      some r ∧ ⟨0, 1900, some 1800⟩ ∈ r.resumptions ∧ ¬ r.Restored := by
  have hrun : (Lib.perform YieldRun.step .boot
      (bothRan ++ [.enter 1900, .save, .increment 1, .timer 1 1800])).any fun r =>
        ⟨0, 1900, some 1800⟩ ∈ r.resumptions := by decide +kernel
  obtain ⟨r, hr, hmem⟩ := (Option.any_eq_true _ _).1 hrun
  rw [decide_eq_true_eq] at hmem
  refine ⟨r, hr, hmem, fun h => ?_⟩
  cases h _ hmem

end Tupai
