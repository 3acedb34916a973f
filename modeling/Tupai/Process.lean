import Tupai.Hashtable
import Tupai.Queue
import Tupai.Str

namespace Tupai
set_option autoImplicit true

inductive ThreadState where
  | NEW | ACTIVE | WAITING | DEAD
deriving DecidableEq, Repr, Inhabited

structure Thread where
  id : Int
  lid : Int
  proc : Int
  state : ThreadState
  entry : Nat
  stack : Nat
  stackBlock : Nat
deriving Inhabited

structure Proc where
  id : Int
  name : Chars
  dir : Int
  threadCounter : Int
  threads : Hashtable Int
  lfdCounter : Int
  fds : Hashtable Int

instance : Inhabited Proc := ⟨0, [], 0, 0, .zeroed, 0, .zeroed⟩

structure Task where
  thread : Int
  priority : Int
  cpriority : Int

/-- A `task_t` as its member initialisers leave it. -/
def Task.idle : Task := ⟨ID_INVALID, ID_INVALID, ID_INVALID⟩

/-- A task that gave up one of its turns. -/
def Task.demote (task : Task) : Task := { task with cpriority := task.cpriority - 1 }

/-- A task that is owed its full priority again. -/
def Task.renew (task : Task) : Task := { task with cpriority := task.priority }

def PROC_NAME_MAX : Nat := 256
def THREAD_STACK_SIZE : Nat := 2048

def SCHEDULE_SIZE : Nat := 256

/-- The static variables of the process and scheduler modules. -/
structure Procs where
  procTable : Hashtable Proc
  procCounter : Int
  threadTable : Hashtable Thread
  threadCounter : Int
  cproc : Int
  cthread : Int
  schedule : Queue Task
  ctask : Task

def toShort (n : Int) : Int := n.bmod (2 ^ 16)

namespace Procs

/-- The zero-initialised static variables with their member initialisers. -/
def boot : Procs :=
  ⟨.zeroed, 0, .zeroed, 0, ID_INVALID, ID_INVALID, .empty .idle, .idle⟩

def getCurrent (s : Procs) : Int := s.cproc

def setCurrent (s : Procs) (proc : Int) : Procs := { s with cproc := proc }

def getLid (s : Procs) (thread : Int) : Int :=
  match s.threadTable.get thread with
  | some t => t.lid
  | none => ID_INVALID

/-- A thread that is not in the table counts as dead. -/
def getState (s : Procs) (thread : Int) : ThreadState :=
  match s.threadTable.get thread with
  | some t => t.state
  | none => .DEAD

def getProcess (s : Procs) (thread : Int) : Int :=
  match s.threadTable.get thread with
  | some t => t.proc
  | none => ID_INVALID

def getEntry (s : Procs) (thread : Int) : Nat :=
  match s.threadTable.get thread with
  | some t => t.entry
  | none => 0

def getStack (s : Procs) (thread : Int) : Nat :=
  match s.threadTable.get thread with
  | some t => t.stack
  | none => 0

/-- A write through the pointer that `thread_table[thread]` returns. -/
def modifyThread (s : Procs) (thread : Int) (f : Thread → Thread) : Procs :=
  { s with threadTable := s.threadTable.modify thread f }

/-- A write through the pointer that `proc_table[proc]` returns. -/
def modifyProc (s : Procs) (proc : Int) (f : Proc → Proc) : Procs :=
  { s with procTable := s.procTable.modify proc f }

def setLid (s : Procs) (thread lid : Int) : Procs :=
  s.modifyThread thread fun t => { t with lid := lid }

def setState (s : Procs) (thread : Int) (state : ThreadState) : Procs :=
  s.modifyThread thread fun t => { t with state := state }

def setStack (s : Procs) (thread : Int) (stack : Nat) : Procs :=
  s.modifyThread thread fun t => { t with stack := stack }

def kill (s : Procs) (thread : Int) : Int × Procs := (0, s.setState thread .DEAD)

def setCurrentThread (s : Procs) (thread : Int) : Procs :=
  { s with cthread := thread, cproc := s.getProcess thread }

/-- The local `nproc` of `create`. The fields without an initialiser hold what `leftover`, the
uninitialised stack storage, held before. -/
def nproc (leftover : Proc) (id : Int) (name : Chars) (dir : Int) : Proc where
  id := id
  name := strCpyN name leftover.name PROC_NAME_MAX
  dir := dir
  threadCounter := 0
  threads := { leftover.threads with itemCount := 0 }
  lfdCounter := 0
  fds := { leftover.fds with itemCount := 0 }

def create (s : Procs) (leftover : Proc) (name : Chars) (dir : Int) : Int × Procs :=
  let id := s.procCounter + 1
  (id, { s with
    procCounter := id
    procTable := (s.procTable.add id (nproc leftover id name dir)).2 })

/-- `nstack` is the block that `new` returned for the stack. -/
def createThread (s : Procs) (parentProc : Int) (entry nstack : Nat) : Int × Procs :=
  let nid := s.threadCounter
  let nthread : Thread :=
    { id := nid
      lid := ID_INVALID
      proc := parentProc
      state := .NEW
      entry := entry
      stack := nstack + THREAD_STACK_SIZE
      stackBlock := nstack }
  (nid, { s with threadCounter := nid + 1, threadTable := (s.threadTable.add nid nthread).2 })

def schedulerSchedule (s : Procs) (thread priority : Int) : Procs :=
  let ntask : Task := ⟨thread, toShort priority, toShort priority⟩
  { s with schedule := s.schedule.push SCHEDULE_SIZE ntask }

def spawnThread (s : Procs) (this : Int) (entry nstack : Nat) : Int × Procs :=
  match s.procTable.get this with
  | some proc =>
    let nid := proc.threadCounter
    let s := s.modifyProc this fun p => { p with threadCounter := nid + 1 }
    let (nthread, s) := s.createThread this entry nstack
    let s := s.setLid nthread nid
    let s := s.modifyProc this fun p => { p with threads := (p.threads.add nid nthread).2 }
    (nid, s.schedulerSchedule nthread 0)
  | none => (ID_INVALID, s)

def deleteThread (s : Procs) (this thread : Int) : Int × Procs :=
  match s.procTable.get this with
  | some _ =>
    let lid := s.getLid thread
    let s := s.modifyProc this fun p => { p with threads := (p.threads.remove lid).2 }
    (0, { s with threadTable := (s.threadTable.remove thread).2 })
  | none => (1, s)

def getFd (s : Procs) (this lfd : Int) : Int :=
  match s.procTable.get this with
  | some proc => if lfd ≠ ID_INVALID then (proc.fds.get lfd).getD ID_INVALID else ID_INVALID
  | none => ID_INVALID

def deleteFd (s : Procs) (this lfd : Int) : Int × Procs :=
  match s.procTable.get this with
  | some proc =>
    (if (proc.fds.remove lfd).1 then 0 else 1,
      s.modifyProc this fun p => { p with fds := (p.fds.remove lfd).2 })
  | none => (1, s)

structure Ok (s : Procs) : Prop where
  procOk : s.procTable.Ok
  procKeys : ∀ p, s.procTable.get p ≠ none → 0 < p ∧ p ≤ s.procCounter
  threadOk : s.threadTable.Ok
  threadKeys : ∀ t, s.threadTable.get t ≠ none → 0 ≤ t ∧ t < s.threadCounter
  parent : ∀ t th, s.threadTable.get t = some th → s.procTable.get th.proc ≠ none
  threadPos : 0 ≤ s.threadCounter
  procPos : 0 ≤ s.procCounter
  queueOk : s.schedule.Ok SCHEDULE_SIZE

variable {s : Procs}

theorem boot_ok : boot.Ok where
  procOk := Hashtable.zeroed_unused.ok
  procKeys := fun p hp => absurd (Hashtable.zeroed_unused.get p) hp
  threadOk := Hashtable.zeroed_unused.ok
  threadKeys := fun t ht => absurd (Hashtable.zeroed_unused.get t) ht
  parent := by
    intro t th ht
    have hn : boot.threadTable.get t = none := Hashtable.zeroed_unused.get t
    rw [hn] at ht
    cases ht
  threadPos := le_refl 0
  procPos := le_refl 0
  queueOk := Queue.empty_ok (by decide) _

theorem Ok.freshProc (ok : s.Ok) : s.procTable.get (s.procCounter + 1) = none :=
  Hashtable.fresh_of_lt fun p hp => Int.lt_add_one_iff.2 (ok.procKeys p hp).2

theorem Ok.freshThread (ok : s.Ok) : s.threadTable.get s.threadCounter = none :=
  Hashtable.fresh_of_lt fun t ht => (ok.threadKeys t ht).2

theorem getState_eq_dead (h : s.threadTable.get t = none) : s.getState t = .DEAD := by
  rw [getState, h]

theorem get_of_not_dead (h : s.getState t ≠ .DEAD) : s.threadTable.get t ≠ none :=
  fun hn => h (getState_eq_dead hn)

theorem get_modifyProc (s : Procs) (proc : Int) (f : Proc → Proc) (p : Int) :
    (s.modifyProc proc f).procTable.get p =
      if p = proc then (s.procTable.get p).map f else s.procTable.get p :=
  Hashtable.get_modify ..

theorem live_modifyProc (s : Procs) (proc : Int) (f : Proc → Proc) (p : Int) :
    (s.modifyProc proc f).procTable.get p ≠ none ↔ s.procTable.get p ≠ none := by
  rw [get_modifyProc]
  split_ifs <;> simp

theorem Ok.modifyProc (ok : s.Ok) (proc : Int) (f : Proc → Proc) : (s.modifyProc proc f).Ok where
  procOk := ok.procOk.modify proc f
  procKeys := fun p hp => ok.procKeys p ((live_modifyProc s proc f p).1 hp)
  threadOk := ok.threadOk
  threadKeys := ok.threadKeys
  parent := fun t th ht => (live_modifyProc s proc f th.proc).2 (ok.parent t th ht)
  threadPos := ok.threadPos
  procPos := ok.procPos
  queueOk := ok.queueOk

theorem get_modifyThread (s : Procs) (thread : Int) (f : Thread → Thread) (t : Int) :
    (s.modifyThread thread f).threadTable.get t =
      if t = thread then (s.threadTable.get t).map f else s.threadTable.get t :=
  Hashtable.get_modify ..

theorem get_modifyThread_none (s : Procs) (thread : Int) (f : Thread → Thread) (t : Int) :
    (s.modifyThread thread f).threadTable.get t = none ↔ s.threadTable.get t = none := by
  rw [get_modifyThread]
  split_ifs <;> simp

theorem Ok.modifyThread (ok : s.Ok) (thread : Int) {f : Thread → Thread}
    (hf : ∀ th, (f th).proc = th.proc) : (s.modifyThread thread f).Ok where
  procOk := ok.procOk
  procKeys := ok.procKeys
  threadOk := ok.threadOk.modify thread f
  threadKeys := fun t ht => ok.threadKeys t (mt (get_modifyThread_none s thread f t).2 ht)
  parent := by
    intro t th ht
    rw [get_modifyThread] at ht
    split_ifs at ht with he
    · obtain ⟨th', h', rfl⟩ := Option.map_eq_some_iff.1 ht
      rw [hf]
      exact ok.parent t th' h'
    · exact ok.parent t th ht
  threadPos := ok.threadPos
  procPos := ok.procPos
  queueOk := ok.queueOk

theorem getState_modifyThread (s : Procs) (thread : Int) {f : Thread → Thread}
    (hf : ∀ th, (f th).state = th.state) (t : Int) :
    (s.modifyThread thread f).getState t = s.getState t := by
  rw [getState, get_modifyThread, getState]
  split_ifs
  · cases s.threadTable.get t with
    | none => rfl
    | some th => exact hf th
  · rfl

theorem getState_kill (s : Procs) (thread t : Int) :
    (s.kill thread).2.getState t = if t = thread then .DEAD else s.getState t := by
  rw [kill, setState, getState, get_modifyThread, getState]
  split_ifs
  · cases s.threadTable.get t <;> rfl
  · rfl

theorem Ok.setLid (ok : s.Ok) (thread lid : Int) : (s.setLid thread lid).Ok :=
  ok.modifyThread thread fun _ => rfl

theorem Ok.setState (ok : s.Ok) (thread : Int) (state : ThreadState) :
    (s.setState thread state).Ok :=
  ok.modifyThread thread fun _ => rfl

theorem Ok.setStack (ok : s.Ok) (thread : Int) (stack : Nat) : (s.setStack thread stack).Ok :=
  ok.modifyThread thread fun _ => rfl

theorem Ok.kill (ok : s.Ok) (thread : Int) : (s.kill thread).2.Ok :=
  ok.setState thread .DEAD

theorem get_create (ok : s.Ok) (leftover : Proc) (name : Chars) (dir p : Int) :
    (s.create leftover name dir).2.procTable.get p =
      if p = s.procCounter + 1 ∧ s.procTable.size < HASHTABLE_CAPACITY then
        some (nproc leftover (s.procCounter + 1) name dir)
      else s.procTable.get p :=
  ok.procOk.get_add ok.freshProc _ p

theorem Ok.create (ok : s.Ok) (leftover : Proc) (name : Chars) (dir : Int) :
    (s.create leftover name dir).2.Ok where
  procOk := ok.procOk.add ok.freshProc _
  procKeys := by
    intro p hp
    have hpos := ok.procPos
    dsimp only [Procs.create]
    rcases Hashtable.mem_add hp with rfl | hp
    · omega
    · have := ok.procKeys p hp
      omega
  threadOk := ok.threadOk
  threadKeys := ok.threadKeys
  parent := by
    intro t th ht
    rw [get_create ok]
    split_ifs
    · exact Option.some_ne_none _
    · exact ok.parent t th ht
  threadPos := ok.threadPos
  procPos := by
    have hpos := ok.procPos
    simp only [Procs.create]
    omega
  queueOk := ok.queueOk

theorem get_createThread (ok : s.Ok) (p : Int) (entry nstack : Nat) (t : Int) :
    (s.createThread p entry nstack).2.threadTable.get t =
      if t = s.threadCounter ∧ s.threadTable.size < HASHTABLE_CAPACITY then
        some ⟨s.threadCounter, ID_INVALID, p, .NEW, entry, nstack + THREAD_STACK_SIZE, nstack⟩
      else s.threadTable.get t := by
  rw [createThread]
  exact ok.threadOk.get_add ok.freshThread _ t

theorem Ok.createThread (ok : s.Ok) (hp : s.procTable.get p ≠ none) (entry nstack : Nat) :
    (s.createThread p entry nstack).2.Ok where
  procOk := ok.procOk
  procKeys := ok.procKeys
  threadOk := ok.threadOk.add ok.freshThread _
  threadKeys := by
    intro t ht
    have hpos := ok.threadPos
    dsimp only [Procs.createThread]
    rcases Hashtable.mem_add ht with rfl | ht
    · omega
    · have := ok.threadKeys t ht
      omega
  parent := by
    intro t th ht
    rw [get_createThread ok] at ht
    split_ifs at ht
    · cases ht
      exact hp
    · exact ok.parent t th ht
  threadPos := by
    have hpos := ok.threadPos
    simp only [Procs.createThread]
    omega
  procPos := ok.procPos
  queueOk := ok.queueOk

theorem Ok.schedulerSchedule (ok : s.Ok) (thread priority : Int) :
    (s.schedulerSchedule thread priority).Ok where
  procOk := ok.procOk
  procKeys := ok.procKeys
  threadOk := ok.threadOk
  threadKeys := ok.threadKeys
  parent := ok.parent
  threadPos := ok.threadPos
  procPos := ok.procPos
  queueOk := (ok.queueOk.push _).1

/-- `spawn_thread` up to the point where the new thread is handed to the scheduler. -/
def enrol (s : Procs) (this : Int) (proc : Proc) (entry nstack : Nat) : Procs :=
  let nid := proc.threadCounter
  let s₁ := s.modifyProc this fun p => { p with threadCounter := nid + 1 }
  let s₂ := (s₁.createThread this entry nstack).2.setLid s.threadCounter nid
  s₂.modifyProc this fun p => { p with threads := (p.threads.add nid s.threadCounter).2 }

theorem spawnThread_some (h : s.procTable.get this = some proc) (entry nstack : Nat) :
    s.spawnThread this entry nstack = (proc.threadCounter,
      (s.enrol this proc entry nstack).schedulerSchedule s.threadCounter 0) := by
  rw [spawnThread, h]
  rfl

theorem spawnThread_none (h : s.procTable.get this = none) (entry nstack : Nat) :
    s.spawnThread this entry nstack = (ID_INVALID, s) := by
  rw [spawnThread, h]

theorem Ok.enrol (ok : s.Ok) (h : s.procTable.get this ≠ none) (proc : Proc)
    (entry nstack : Nat) : (s.enrol this proc entry nstack).Ok := by
  apply Ok.modifyProc
  apply Ok.setLid
  apply (ok.modifyProc this _).createThread
  rwa [live_modifyProc]

theorem Ok.spawnThread (ok : s.Ok) (this : Int) (entry nstack : Nat) :
    (s.spawnThread this entry nstack).2.Ok := by
  cases h : s.procTable.get this with
  | none =>
    rw [spawnThread_none h]
    exact ok
  | some proc =>
    rw [spawnThread_some h]
    apply Ok.schedulerSchedule
    apply ok.enrol
    rw [h]
    exact Option.some_ne_none proc

/-- The only change to the thread table is the new thread, if there is room for it. -/
theorem get_enrol (ok : s.Ok) (this : Int) (proc : Proc) (entry nstack : Nat) (t : Int) :
    (s.enrol this proc entry nstack).threadTable.get t =
      if t = s.threadCounter ∧ s.threadTable.size < HASHTABLE_CAPACITY then
        some ⟨s.threadCounter, proc.threadCounter, this, .NEW, entry,
          nstack + THREAD_STACK_SIZE, nstack⟩
      else s.threadTable.get t := by
  have hget := get_createThread
    (ok.modifyProc this fun p => { p with threadCounter := proc.threadCounter + 1 })
    this entry nstack t
  change (setLid _ s.threadCounter proc.threadCounter).threadTable.get t = _
  rw [setLid, get_modifyThread, hget]
  by_cases ht : t = s.threadCounter
  · have hnone := ok.freshThread
    by_cases hsize : s.threadTable.size < HASHTABLE_CAPACITY
    · simp [ht, hsize, modifyProc]
    · simp [ht, hsize, modifyProc, hnone]
  · simp [ht, modifyProc]

theorem threadCounter_enrol (s : Procs) (this : Int) (proc : Proc) (entry nstack : Nat) :
    (s.enrol this proc entry nstack).threadCounter = s.threadCounter + 1 := rfl

theorem size_enrol (ok : s.Ok) (this : Int) (proc : Proc) (entry nstack : Nat) :
    (s.enrol this proc entry nstack).threadTable.size =
      min (s.threadTable.size + 1) HASHTABLE_CAPACITY := by
  change (setLid _ s.threadCounter proc.threadCounter).threadTable.size = _
  rw [setLid, modifyThread, Hashtable.size_modify, createThread]
  exact ok.threadOk.size_add ok.freshThread _

theorem deleteThread_some (h : s.procTable.get this = some proc) (thread : Int) :
    s.deleteThread this thread =
      (0, { s.modifyProc this fun p =>
              { p with threads := (p.threads.remove (s.getLid thread)).2 } with
            threadTable := (s.threadTable.remove thread).2 }) := by
  rw [deleteThread, h]
  rfl

theorem deleteThread_none (h : s.procTable.get this = none) (thread : Int) :
    s.deleteThread this thread = (1, s) := by
  rw [deleteThread, h]

theorem schedule_deleteThread (s : Procs) (this thread : Int) :
    (s.deleteThread this thread).2.schedule = s.schedule := by
  rw [deleteThread]
  cases s.procTable.get this <;> rfl

theorem get_deleteThread (ok : s.Ok) (thread t : Int) :
    (s.deleteThread (s.getProcess thread) thread).2.threadTable.get t =
      if t = thread then none else s.threadTable.get t := by
  cases h : s.procTable.get (s.getProcess thread) with
  | some proc =>
    rw [deleteThread_some h]
    exact ok.threadOk.get_remove thread t
  | none =>
    rw [deleteThread_none h]
    split_ifs with he
    · rw [he]
      by_contra hn
      obtain ⟨th, hth⟩ := Option.ne_none_iff_exists'.1 hn
      apply ok.parent thread th hth
      rwa [getProcess, hth] at h
    · rfl

theorem Ok.deleteThread (ok : s.Ok) (this thread : Int) : (s.deleteThread this thread).2.Ok := by
  cases h : s.procTable.get this with
  | none =>
    rw [deleteThread_none h]
    exact ok
  | some proc =>
    rw [deleteThread_some h]
    have ok' := ok.modifyProc this fun p =>
      { p with threads := (p.threads.remove (s.getLid thread)).2 }
    have hget : ∀ t th, (s.threadTable.remove thread).2.get t = some th →
        s.threadTable.get t = some th := by
      intro t th ht
      rw [ok.threadOk.get_remove] at ht
      split_ifs at ht
      exact ht
    refine ⟨ok'.procOk, ok'.procKeys, ok.threadOk.remove thread, ?_, ?_, ok.threadPos, ok.procPos,
      ok.queueOk⟩
    · exact fun t ht => ok.threadKeys t (Hashtable.mem_remove ht)
    · exact fun t th ht => ok'.parent t th (hget t th ht)

end Procs
end Tupai
