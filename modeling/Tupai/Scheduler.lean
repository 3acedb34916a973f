import Tupai.Process

namespace Tupai
set_option autoImplicit true

/-- The loop of `scheduler_increment`; without fuel it has not yet chosen a task. -/
def selectTask : (fuel : Nat) → Queue Task → Option (Task × Queue Task)
  | 0, _ => none
  | fuel + 1, schedule =>
    let (ctask, schedule) := schedule.pop SCHEDULE_SIZE
    if ctask.cpriority ≤ 0 then some (ctask, schedule)
    else selectTask fuel (schedule.push SCHEDULE_SIZE ctask.demote)

/-- How `scheduler_preempt` enters the selected thread. -/
inductive Dispatch where
  | bootstrap (entry stack : Nat)
  | resume (stack : Nat)
deriving DecidableEq, Repr

namespace Procs

/-- The part of `scheduler_increment` before its loop. -/
def retireTask (s : Procs) : Procs :=
  if s.ctask.thread ≠ ID_INVALID then
    if s.getState s.ctask.thread = .DEAD then
      (s.deleteThread (s.getProcess s.ctask.thread) s.ctask.thread).2
    else { s with
      ctask := s.ctask.renew
      schedule := s.schedule.push SCHEDULE_SIZE s.ctask.renew }
  else s

def schedulerIncrement (fuel : Nat) (s : Procs) : Option Procs :=
  match selectTask fuel s.retireTask.schedule with
  | some (ctask, schedule) =>
    let s := { s.retireTask with ctask := ctask, schedule := schedule }
    some (s.setCurrentThread s.ctask.thread)
  | none => none

def schedulerCurrent (s : Procs) : Int := s.ctask.thread

/-- The current thread's stack is saved before the scheduler moves on. -/
def saveStack (s : Procs) (oldStack : Nat) : Procs :=
  if s.ctask.thread ≠ ID_INVALID then s.setStack s.ctask.thread oldStack else s

def schedulerPreempt (fuel : Nat) (s : Procs) (oldStack : Nat) : Option (Dispatch × Procs) :=
  match (s.saveStack oldStack).schedulerIncrement fuel with
  | some s =>
    let newStack := s.getStack s.ctask.thread
    match s.getState s.ctask.thread with
    | .NEW =>
      let s := s.setState s.ctask.thread .ACTIVE
      some (.bootstrap (s.getEntry s.ctask.thread) (s.getStack s.ctask.thread), s)
    | _ => some (.resume newStack, s)
  | none => none

/-- The threads in the queue, oldest first. -/
def queued (s : Procs) : List Int := (s.schedule.toList SCHEDULE_SIZE).map Task.thread

def running (s : Procs) : List Int :=
  if s.ctask.thread ≠ ID_INVALID then [s.ctask.thread] else []

/-- The threads that the scheduler knows. -/
def held (s : Procs) : List Int := s.running ++ s.queued

/-- The thread that `scheduler_increment` deletes. -/
def retired (s : Procs) : List Int :=
  if s.ctask.thread ≠ ID_INVALID ∧ s.getState s.ctask.thread = .DEAD then [s.ctask.thread] else []

end Procs

variable {q : Queue Task}

theorem pop_task (hq : q.Ok SCHEDULE_SIZE) (hne : q.length ≠ 0) :
    (q.pop SCHEDULE_SIZE).2.Ok SCHEDULE_SIZE ∧
      q.toList SCHEDULE_SIZE =
        (q.pop SCHEDULE_SIZE).1 :: (q.pop SCHEDULE_SIZE).2.toList SCHEDULE_SIZE ∧
      q.length = (q.pop SCHEDULE_SIZE).2.length + 1 := by
  obtain ⟨hq', hlist⟩ := hq.pop (by decide) hne
  refine ⟨hq', hlist, ?_⟩
  rw [← Queue.length_toList SCHEDULE_SIZE q, hlist, List.length_cons, Queue.length_toList]

/-- One round of the loop puts the task back behind all others. -/
theorem requeue (hq : q.Ok SCHEDULE_SIZE) (hne : q.length ≠ 0) (task : Task) :
    ((q.pop SCHEDULE_SIZE).2.push SCHEDULE_SIZE task).Ok SCHEDULE_SIZE ∧
      ((q.pop SCHEDULE_SIZE).2.push SCHEDULE_SIZE task).toList SCHEDULE_SIZE =
        (q.pop SCHEDULE_SIZE).2.toList SCHEDULE_SIZE ++ [task] ∧
      ((q.pop SCHEDULE_SIZE).2.push SCHEDULE_SIZE task).length = q.length := by
  obtain ⟨hq', hlist, hlen⟩ := pop_task hq hne
  have hle := hq.length_le
  obtain ⟨hq'', hlist'⟩ := hq'.push_of_lt (by omega) task
  refine ⟨hq'', hlist', ?_⟩
  rw [← Queue.length_toList SCHEDULE_SIZE, hlist', List.length_append, Queue.length_toList, hlen]
  rfl

theorem selectTask_succ (fuel : Nat) (q : Queue Task) :
    selectTask (fuel + 1) q =
      if (q.pop SCHEDULE_SIZE).1.cpriority ≤ 0 then some (q.pop SCHEDULE_SIZE)
      else selectTask fuel
        ((q.pop SCHEDULE_SIZE).2.push SCHEDULE_SIZE (q.pop SCHEDULE_SIZE).1.demote) :=
  rfl

/-- The loop loses no thread and doubles none. -/
theorem selectTask_spec (hq : q.Ok SCHEDULE_SIZE) (hne : q.length ≠ 0)
    (h : selectTask fuel q = some (task, q')) :
    q'.Ok SCHEDULE_SIZE ∧
      ((q.toList SCHEDULE_SIZE).map Task.thread).Perm
        (task.thread :: (q'.toList SCHEDULE_SIZE).map Task.thread) := by
  induction fuel generalizing q with
  | zero => cases h
  | succ fuel ih =>
    obtain ⟨hpop, hlist, _⟩ := pop_task hq hne
    rw [selectTask_succ] at h
    split_ifs at h with hc
    · have he : q.pop SCHEDULE_SIZE = (task, q') := Option.some.inj h
      rw [he] at hpop hlist
      refine ⟨hpop, ?_⟩
      rw [hlist, List.map_cons]
    · obtain ⟨hq', hlist', hlen⟩ := requeue hq hne (q.pop SCHEDULE_SIZE).1.demote
      obtain ⟨hok, hperm⟩ := ih hq' (by rwa [hlen]) h
      refine ⟨hok, List.Perm.trans ?_ hperm⟩
      rw [hlist, hlist', List.map_cons, List.map_append]
      exact (List.perm_append_singleton ..).symm

/-- What is left to count down before every task of the queue is eligible. -/
def countdown (q : Queue Task) : Nat :=
  ((q.toList SCHEDULE_SIZE).map fun task => task.cpriority.toNat).sum

/-- Every round counts down, so the loop ends. -/
theorem selectTask_terminates (hq : q.Ok SCHEDULE_SIZE) (hne : q.length ≠ 0)
    (hfuel : countdown q < fuel) : ∃ task q', selectTask fuel q = some (task, q') := by
  induction fuel generalizing q with
  | zero => exact absurd hfuel (Nat.not_lt_zero _)
  | succ fuel ih =>
    obtain ⟨_, hlist, _⟩ := pop_task hq hne
    rw [selectTask_succ]
    split_ifs with hc
    · exact ⟨_, _, rfl⟩
    · obtain ⟨hq', hlist', hlen⟩ := requeue hq hne (q.pop SCHEDULE_SIZE).1.demote
      apply ih hq' (by rwa [hlen])
      rw [countdown, hlist, List.map_cons, List.sum_cons] at hfuel
      rw [countdown, hlist', List.map_append, List.sum_append, List.map_singleton,
        List.sum_singleton]
      change _ + ((q.pop SCHEDULE_SIZE).1.cpriority - 1).toNat < fuel
      omega

namespace Procs

variable {s : Procs}

theorem retireTask_dead (h : s.ctask.thread ≠ ID_INVALID)
    (hd : s.getState s.ctask.thread = .DEAD) :
    s.retireTask = (s.deleteThread (s.getProcess s.ctask.thread) s.ctask.thread).2 ∧
      s.retired = [s.ctask.thread] := by
  rw [retireTask, if_pos h, if_pos hd, retired, if_pos ⟨h, hd⟩]
  exact ⟨rfl, rfl⟩

theorem retireTask_alive (h : s.ctask.thread ≠ ID_INVALID)
    (hd : s.getState s.ctask.thread ≠ .DEAD) :
    s.retireTask = { s with
      ctask := s.ctask.renew
      schedule := s.schedule.push SCHEDULE_SIZE s.ctask.renew } ∧
      s.retired = [] := by
  rw [retireTask, if_pos h, if_neg hd, retired, if_neg (not_and_of_not_right _ hd)]
  exact ⟨rfl, rfl⟩

theorem retireTask_idle (h : s.ctask.thread = ID_INVALID) :
    s.retireTask = s ∧ s.retired = [] := by
  rw [retireTask, if_neg (not_not.2 h), retired, if_neg fun hc => hc.1 h]
  exact ⟨rfl, rfl⟩

theorem running_of_ne (h : s.ctask.thread ≠ ID_INVALID) : s.running = [s.ctask.thread] := if_pos h

theorem running_of_eq (h : s.ctask.thread = ID_INVALID) : s.running = [] := if_neg (not_not.2 h)

theorem getState_of_retired (h : t ∈ s.retired) : s.getState t = .DEAD := by
  rw [retired] at h
  split_ifs at h with hc
  · rw [List.mem_singleton.1 h, hc.2]
  · cases h

theorem length_queued (s : Procs) : s.queued.length = s.schedule.length := by
  rw [queued, List.length_map, Queue.length_toList]

theorem Ok.retireTask (ok : s.Ok) : s.retireTask.Ok := by
  by_cases hc : s.ctask.thread = ID_INVALID
  · rw [(retireTask_idle hc).1]
    exact ok
  · by_cases hd : s.getState s.ctask.thread = .DEAD
    · rw [(retireTask_dead hc hd).1]
      exact ok.deleteThread ..
    · rw [(retireTask_alive hc hd).1]
      exact { ok with queueOk := (ok.queueOk.push _).1 }

theorem held_schedulerSchedule (ok : s.Ok) (hroom : s.held.length < SCHEDULE_SIZE)
    (thread priority : Int) :
    (s.schedulerSchedule thread priority).held = s.held ++ [thread] := by
  rw [held, List.length_append, length_queued] at hroom
  have hlist := (ok.queueOk.push_of_lt (by omega)
    ⟨thread, toShort priority, toShort priority⟩).2
  rw [held, held, queued, queued, List.append_assoc, schedulerSchedule, hlist, List.map_append]
  rfl

theorem held_retireTask (ok : s.Ok) (hroom : s.held.length ≤ SCHEDULE_SIZE) :
    s.held.Perm (s.retired ++ s.retireTask.queued) := by
  rw [held, List.length_append, length_queued] at hroom
  rw [held]
  by_cases hc : s.ctask.thread = ID_INVALID
  · obtain ⟨he, hr⟩ := retireTask_idle hc
    rw [he, hr, running_of_eq hc]
  · rw [running_of_ne hc] at hroom ⊢
    by_cases hd : s.getState s.ctask.thread = .DEAD
    · obtain ⟨he, hr⟩ := retireTask_dead hc hd
      rw [he, hr, queued, queued, schedule_deleteThread]
    · obtain ⟨he, hr⟩ := retireTask_alive hc hd
      have hlt : s.schedule.length < SCHEDULE_SIZE := by
        rw [List.length_singleton] at hroom
        omega
      rw [he, hr, List.nil_append, queued, queued, (ok.queueOk.push_of_lt hlt _).2, List.map_append]
      exact (List.perm_append_singleton ..).symm

theorem mem_queued_push (ok : s.Ok) {task : Task}
    (h : t ∈ ((s.schedule.push SCHEDULE_SIZE task).toList SCHEDULE_SIZE).map Task.thread) :
    t ∈ s.queued ∨ t = task.thread := by
  rw [(ok.queueOk.push _).2, List.map_append, List.mem_append] at h
  rcases h with h | h
  · split_ifs at h
    · exact .inl h
    · rw [List.map_tail] at h
      exact .inl (List.mem_of_mem_tail h)
  · exact .inr (List.mem_singleton.1 h)

/-- Even a full queue offers only threads that were queued, or the live current one. -/
theorem mem_retireTask_queued (ok : s.Ok) (h : t ∈ s.retireTask.queued) :
    t ∈ s.queued ∨ t = s.ctask.thread ∧ s.getState t ≠ .DEAD := by
  by_cases hc : s.ctask.thread = ID_INVALID
  · rw [(retireTask_idle hc).1] at h
    exact .inl h
  · by_cases hd : s.getState s.ctask.thread = .DEAD
    · rw [(retireTask_dead hc hd).1, queued, schedule_deleteThread] at h
      exact .inl h
    · rw [(retireTask_alive hc hd).1] at h
      rcases mem_queued_push ok h with h | rfl
      · exact .inl h
      · exact .inr ⟨rfl, hd⟩

theorem saveStack_spec (ok : s.Ok) (oldStack : Nat) :
    (s.saveStack oldStack).Ok ∧ (∀ t, (s.saveStack oldStack).getState t = s.getState t) ∧
      ∀ t, (s.saveStack oldStack).threadTable.get t = none ↔ s.threadTable.get t = none := by
  rw [saveStack]
  split_ifs
  · exact ⟨ok.setStack .., getState_modifyThread s _ fun _ => rfl, get_modifyThread_none s _ _⟩
  · exact ⟨ok, fun _ => rfl, fun _ => .rfl⟩

theorem saveStack_ctask (s : Procs) (oldStack : Nat) : (s.saveStack oldStack).ctask = s.ctask := by
  rw [saveStack]
  split_ifs <;> rfl

theorem saveStack_queued (s : Procs) (oldStack : Nat) :
    (s.saveStack oldStack).queued = s.queued := by
  rw [saveStack]
  split_ifs <;> rfl

theorem saveStack_held (s : Procs) (oldStack : Nat) : (s.saveStack oldStack).held = s.held := by
  rw [held, held, running, running, saveStack_ctask, saveStack_queued]

theorem saveStack_retired (ok : s.Ok) (oldStack : Nat) :
    (s.saveStack oldStack).retired = s.retired := by
  rw [retired, retired, saveStack_ctask, (saveStack_spec ok oldStack).2.1]

theorem getState_retireTask (ok : s.Ok) (t : Int) :
    s.retireTask.getState t = s.getState t := by
  by_cases hc : s.ctask.thread = ID_INVALID
  · rw [(retireTask_idle hc).1]
  · by_cases hd : s.getState s.ctask.thread = .DEAD
    · rw [(retireTask_dead hc hd).1, getState, get_deleteThread ok]
      split_ifs with he
      · rw [he, hd]
      · rfl
    · rw [(retireTask_alive hc hd).1]
      rfl

theorem retireTask_threadTable (h : s.retired = []) :
    s.retireTask.threadTable = s.threadTable := by
  by_cases hc : s.ctask.thread = ID_INVALID
  · rw [(retireTask_idle hc).1]
  · by_cases hd : s.getState s.ctask.thread = .DEAD
    · rw [(retireTask_dead hc hd).2] at h
      cases h
    · rw [(retireTask_alive hc hd).1]

theorem get_retireTask (ok : s.Ok) (t : Int) :
    s.retireTask.threadTable.get t =
      if t ∈ s.retired then none else s.threadTable.get t := by
  by_cases hc : s.ctask.thread = ID_INVALID
  · obtain ⟨he, hr⟩ := retireTask_idle hc
    rw [he, hr, if_neg List.not_mem_nil]
  · by_cases hd : s.getState s.ctask.thread = .DEAD
    · obtain ⟨he, hr⟩ := retireTask_dead hc hd
      rw [he, hr, get_deleteThread ok]
      simp only [List.mem_singleton]
    · obtain ⟨he, hr⟩ := retireTask_alive hc hd
      rw [he, hr, if_neg List.not_mem_nil]

theorem threadCounter_deleteThread (s : Procs) (this thread : Int) :
    (s.deleteThread this thread).2.threadCounter = s.threadCounter := by
  rw [deleteThread]
  cases s.procTable.get this <;> rfl

theorem threadCounter_retireTask (s : Procs) : s.retireTask.threadCounter = s.threadCounter := by
  by_cases hc : s.ctask.thread = ID_INVALID
  · rw [(retireTask_idle hc).1]
  · by_cases hd : s.getState s.ctask.thread = .DEAD
    · rw [(retireTask_dead hc hd).1, threadCounter_deleteThread]
    · rw [(retireTask_alive hc hd).1]

/-- What `scheduler_increment` does when it has a task to choose. -/
structure Incremented (s s' : Procs) : Prop where
  ok : s'.Ok
  threadTable : s'.threadTable = s.retireTask.threadTable
  threadCounter : s'.threadCounter = s.threadCounter
  procTable : s'.procTable = s.retireTask.procTable
  chosen : s.retireTask.queued.Perm (s'.ctask.thread :: s'.queued)

theorem retireTask_schedule_ne (hne : s.retireTask.queued ≠ []) :
    s.retireTask.schedule.length ≠ 0 := by
  rwa [← length_queued, Ne, List.length_eq_zero_iff]

theorem schedulerIncrement_spec (ok : s.Ok) (hne : s.retireTask.queued ≠ [])
    (h : s.schedulerIncrement fuel = some s') : Incremented s s' := by
  rw [schedulerIncrement] at h
  cases hsel : selectTask fuel s.retireTask.schedule with
  | none => rw [hsel] at h; cases h
  | some r =>
    rw [hsel] at h
    cases h
    obtain ⟨hq, hperm⟩ :=
      selectTask_spec ok.retireTask.queueOk (retireTask_schedule_ne hne) hsel
    exact ⟨{ ok.retireTask with queueOk := hq }, rfl, threadCounter_retireTask s, rfl, hperm⟩

theorem schedulerIncrement_terminates (ok : s.Ok) (hne : s.retireTask.queued ≠ []) :
    ∃ fuel, ∃ s' : Procs, s.schedulerIncrement fuel = some s' := by
  obtain ⟨task, q', hsel⟩ := selectTask_terminates ok.retireTask.queueOk
    (retireTask_schedule_ne hne) (Nat.lt_succ_self _)
  refine ⟨countdown s.retireTask.schedule + 1,
    { s.retireTask with ctask := task, schedule := q' }.setCurrentThread task.thread, ?_⟩
  rw [schedulerIncrement, hsel]

/-- A new thread is entered at its entry and stops being new, any other one at its stack. -/
theorem schedulerPreempt_dispatch (h : s.schedulerPreempt fuel oldStack = some (d, s')) :
    ∃ s₁ : Procs, (s.saveStack oldStack).schedulerIncrement fuel = some s₁ ∧
      ((s₁.getState s₁.ctask.thread = .NEW ∧
          d = .bootstrap (s₁.getEntry s₁.ctask.thread) (s₁.getStack s₁.ctask.thread) ∧
          s' = s₁.setState s₁.ctask.thread .ACTIVE) ∨
        (s₁.getState s₁.ctask.thread ≠ .NEW ∧
          d = .resume (s₁.getStack s₁.ctask.thread) ∧ s' = s₁)) := by
  rw [schedulerPreempt] at h
  cases hinc : (s.saveStack oldStack).schedulerIncrement fuel with
  | none => rw [hinc] at h; cases h
  | some s₁ =>
    rw [hinc] at h
    refine ⟨s₁, rfl, ?_⟩
    cases hst : s₁.getState s₁.ctask.thread with
    | NEW =>
      simp only [hst] at h
      cases h
      refine .inl ⟨rfl, ?_, rfl⟩
      rw [setState, getEntry, getStack, get_modifyThread, getEntry, getStack, modifyThread,
        if_pos rfl]
      cases s₁.threadTable.get s₁.ctask.thread <;> rfl
    | ACTIVE | WAITING | DEAD =>
      simp only [hst] at h
      cases h
      exact .inr ⟨ThreadState.noConfusion, rfl, rfl⟩

theorem schedulerPreempt_some (h : s.schedulerPreempt fuel oldStack = some (d, s')) :
    ∃ s₁ : Procs, (s.saveStack oldStack).schedulerIncrement fuel = some s₁ ∧
      (s' = s₁ ∨
        s₁.getState s₁.ctask.thread = .NEW ∧ s' = s₁.setState s₁.ctask.thread .ACTIVE) := by
  obtain ⟨s₁, hi, ⟨hnew, _, hs⟩ | ⟨_, _, hs⟩⟩ := schedulerPreempt_dispatch h
  · exact ⟨s₁, hi, .inr ⟨hnew, hs⟩⟩
  · exact ⟨s₁, hi, .inl hs⟩

theorem schedulerPreempt_terminates (h : (s.saveStack oldStack).schedulerIncrement fuel = some s₁) :
    ∃ d, ∃ s' : Procs, s.schedulerPreempt fuel oldStack = some (d, s') := by
  rw [schedulerPreempt, h]
  cases hst : s₁.getState s₁.ctask.thread with
  | NEW | ACTIVE | WAITING | DEAD =>
    simp only [hst]
    exact ⟨_, _, rfl⟩

/-- One process with two threads, neither of which has run. -/
def pair : Procs :=
  (((boot.create default [] 0).2.spawnThread 1 7 100).2.spawnThread 1 9 5000).2

def started : Procs := ((pair.schedulerPreempt 1 5).get rfl).2

theorem started_eq : pair.schedulerPreempt 1 5 = some (.bootstrap 7 2148, started) := rfl

end Procs
end Tupai
