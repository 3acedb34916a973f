import Tupai.Lib.Rota
import Tupai.Scheduler

namespace Tupai
open Lib
set_option autoImplicit true

/-- The schedule as a rota: a task waits for as many turns as its `cpriority` is above 0. -/
def taskRota : Rota Task (Int × Int) where
  key task := (task.thread, task.priority)
  turns task := task.cpriority.toNat
  full k := k.2.toNat
  tick := Task.demote
  renew := Task.renew
  key_tick _ := rfl
  key_renew _ := rfl
  turns_tick task := by
    change (task.cpriority - 1).toNat = task.cpriority.toNat - 1
    omega
  turns_renew _ := rfl

namespace Procs

def tasks (s : Procs) : List Task :=
  (if s.ctask.thread ≠ ID_INVALID then [s.ctask] else []) ++ s.schedule.toList SCHEDULE_SIZE

/-- Something that neither kills nor adds a thread, and leaves the schedule alone. -/
structure Aside (s s' : Procs) : Prop where
  ok : s'.Ok
  ctask : s'.ctask = s.ctask
  schedule : s'.schedule = s.schedule
  live : ∀ t, s.getState t ≠ .DEAD → s'.getState t ≠ .DEAD

/-- Consecutive calls of `scheduler_increment`, with the tasks that they select. -/
inductive Increments : Procs → List Task → Procs → Prop where
  | nil : Increments s [] s
  | aside : Aside s s₁ → Increments s₁ ts s' → Increments s ts s'
  | cons : s.schedulerIncrement fuel = some s₁ → Increments s₁ ts s' →
      Increments s (s₁.ctask :: ts) s'

/-- Live threads, each in one task, and no task is owed more turns than its priority. -/
structure Contending (s : Procs) : Prop where
  ok : s.Ok
  nonempty : s.held ≠ []
  room : s.held.length ≤ SCHEDULE_SIZE
  nodup : s.held.Nodup
  live : ∀ t ∈ s.held, s.getState t ≠ .DEAD
  within : ∀ task ∈ s.schedule.toList SCHEDULE_SIZE, task.cpriority ≤ task.priority

structure NoStarvation (s : Procs) : Prop where
  returns : ∀ n, ∃ ts s', s.Increments ts s' ∧ ts.length = n
  selected : ∀ us s₁ ts s₂, s.Increments us s₁ → s₁.Increments ts s₂ → ∀ task ∈ s.tasks,
    (s.held.length : Int) * (max task.priority 0 + 1) ≤ ts.length →
    task.thread ∈ ts.map Task.thread
  evenly : (∀ task ∈ s.tasks, task.priority = 0) → ∀ us s₁ ts s₂, s.Increments us s₁ →
    s₁.Increments ts s₂ → ts.length = s.held.length → ∀ task ∈ s.tasks,
    (ts.map Task.thread).count task.thread = 1

/-- The tasks that the next increment chooses from. -/
def offered (s : Procs) : List Task := s.retireTask.schedule.toList SCHEDULE_SIZE

variable {s s' : Procs}

/-- The loop of `scheduler_increment` is a turn of the rota. -/
theorem selectTask_rotate {q : Queue Task} (hq : q.Ok SCHEDULE_SIZE) (hne : q.length ≠ 0)
    (fuel : Nat) : taskRota.rotate fuel (q.toList SCHEDULE_SIZE) =
      (selectTask fuel q).map fun r => (r.1, r.2.toList SCHEDULE_SIZE) := by
  induction fuel generalizing q with
  | zero => rfl
  | succ fuel ih =>
    obtain ⟨_, hlist, _⟩ := pop_task hq hne
    obtain ⟨hq', hlist', hlen⟩ := requeue hq hne (q.pop SCHEDULE_SIZE).1.demote
    have hturns : taskRota.turns (q.pop SCHEDULE_SIZE).1 = 0 ↔
        (q.pop SCHEDULE_SIZE).1.cpriority ≤ 0 := Int.toNat_eq_zero
    rw [selectTask_succ, hlist, Rota.rotate_cons]
    by_cases hc : (q.pop SCHEDULE_SIZE).1.cpriority ≤ 0
    · rw [if_pos hc, if_pos (hturns.2 hc)]
      rfl
    · rw [if_neg hc, if_neg (mt hturns.1 hc), ← ih hq' (by rwa [hlen]), hlist']
      rfl

theorem Contending.retired (h : s.Contending) : s.retired = [] := by
  apply List.eq_nil_iff_forall_not_mem.2
  intro t ht
  have hheld := (held_retireTask h.ok h.room).mem_iff.2 (List.mem_append_left _ ht)
  exact h.live t hheld (getState_of_retired ht)

theorem Contending.queued_perm (h : s.Contending) : s.held.Perm s.retireTask.queued := by
  have hperm := held_retireTask h.ok h.room
  rwa [h.retired, List.nil_append] at hperm

theorem held_eq_map (s : Procs) : s.held = s.tasks.map Task.thread := by
  rw [held, running, queued, tasks, List.map_append]
  split_ifs <;> rfl

/-- The current task comes back as a new one. -/
theorem Contending.offered_eq (h : s.Contending) :
    s.offered = s.schedule.toList SCHEDULE_SIZE ++
      (if s.ctask.thread ≠ ID_INVALID then [s.ctask.renew] else []) := by
  rw [offered]
  by_cases hc : s.ctask.thread = ID_INVALID
  · rw [(retireTask_idle hc).1, if_neg (not_not.2 hc), List.append_nil]
  · have hrun := running_of_ne hc
    have hlive := h.live s.ctask.thread (by
      rw [held, hrun]
      exact List.mem_cons_self)
    have hroom := h.room
    rw [held, hrun, List.length_append, length_queued, List.length_singleton] at hroom
    rw [(retireTask_alive hc hlive).1, if_pos hc]
    exact (h.ok.queueOk.push_of_lt (by omega) _).2

theorem Contending.tasks_keys (h : s.Contending) :
    (s.tasks.map taskRota.key).Perm (s.offered.map taskRota.key) := by
  rw [h.offered_eq, tasks, List.map_append, List.map_append]
  split_ifs
  · exact List.perm_append_comm
  · exact List.perm_append_comm

theorem Contending.offered_within (h : s.Contending) : taskRota.Within s.offered := by
  intro task ht
  rw [h.offered_eq, List.mem_append] at ht
  rcases ht with ht | ht
  · exact Int.toNat_le_toNat (h.within task ht)
  · split_ifs at ht
    · rw [List.mem_singleton.1 ht]
      exact Nat.le_refl _
    · cases ht

theorem Contending.queued_ne (h : s.Contending) : s.retireTask.queued ≠ [] :=
  fun he => h.nonempty (List.perm_nil.1 (he ▸ h.queued_perm))

theorem Contending.rotate (h : s.Contending) (hi : s.schedulerIncrement fuel = some s') :
    taskRota.rotate fuel s.offered = some (s'.ctask, s'.schedule.toList SCHEDULE_SIZE) := by
  rw [schedulerIncrement] at hi
  cases hsel : selectTask fuel s.retireTask.schedule with
  | none => rw [hsel] at hi; cases hi
  | some r =>
    rw [hsel] at hi
    cases hi
    rw [offered, selectTask_rotate h.ok.retireTask.queueOk (retireTask_schedule_ne h.queued_ne),
      hsel]
    rfl

theorem Contending.chosen_valid (h : s.Contending) (hi : Incremented s s') :
    s'.ctask.thread ≠ ID_INVALID := by
  intro hc
  have hheld := (h.queued_perm.trans hi.chosen).mem_iff.2 List.mem_cons_self
  have hpos := (h.ok.threadKeys _ (get_of_not_dead (h.live _ hheld))).1
  rw [hc] at hpos
  exact absurd hpos (by decide)

theorem Contending.held_perm (h : s.Contending) (hi : Incremented s s') :
    s.held.Perm s'.held := by
  rw [held.eq_def s', running_of_ne (h.chosen_valid hi)]
  exact h.queued_perm.trans hi.chosen

theorem Contending.increment (h : s.Contending) (hi : s.schedulerIncrement fuel = some s') :
    s'.Contending := by
  have hspec := schedulerIncrement_spec h.ok h.queued_ne hi
  have hperm := h.held_perm hspec
  have hstate (t : Int) : s'.getState t = s.getState t := by
    rw [getState, hspec.threadTable, retireTask_threadTable h.retired]
    rfl
  refine ⟨hspec.ok, ?_, ?_, hperm.nodup_iff.1 h.nodup, ?_, ?_⟩
  · exact fun he => h.nonempty (List.perm_nil.1 (he ▸ hperm))
  · rw [← hperm.length_eq]
    exact h.room
  · intro t ht
    rw [hstate]
    exact h.live t (hperm.mem_iff.2 ht)
  · refine Rota.rotate_forall (P := fun task => task.cpriority ≤ task.priority) ?_ ?_ (h.rotate hi)
    · exact fun task ht => (Int.sub_le_self _ Int.one_nonneg).trans ht
    · intro task ht
      rw [h.offered_eq, List.mem_append] at ht
      rcases ht with ht | ht
      · exact h.within task ht
      · split_ifs at ht
        · rw [List.mem_singleton.1 ht]
          exact le_refl _
        · cases ht

theorem Contending.aside (h : s.Contending) (ha : Aside s s') : s'.Contending := by
  have hheld : s'.held = s.held := by rw [held, running, queued, ha.ctask, ha.schedule]; rfl
  refine ⟨ha.ok, ?_, ?_, ?_, ?_, ?_⟩
  · rw [hheld]
    exact h.nonempty
  · rw [hheld]
    exact h.room
  · rw [hheld]
    exact h.nodup
  · rw [hheld]
    exact fun t ht => ha.live t (h.live t ht)
  · rw [ha.schedule]
    exact h.within

theorem Contending.takes (h : s.Contending) (hr : s.Increments ts s') :
    s'.Contending ∧ taskRota.Takes s.offered ts s'.offered := by
  induction hr with
  | nil => exact ⟨h, .nil⟩
  | aside ha _ ih =>
    have h₁ := h.aside ha
    obtain ⟨hend, htakes⟩ := ih h₁
    rw [h₁.offered_eq, ha.ctask, ha.schedule, ← h.offered_eq] at htakes
    exact ⟨hend, htakes⟩
  | @cons s fuel s₁ ts s' hi _ ih =>
    have h₁ := h.increment hi
    obtain ⟨hend, htakes⟩ := ih h₁
    refine ⟨hend, .cons (h.rotate hi) ?_⟩
    rwa [h₁.offered_eq,
      if_pos (h.chosen_valid (schedulerIncrement_spec h.ok h.queued_ne hi))] at htakes

theorem Increments.snoc (h : Increments s ts s₁) (hi : s₁.schedulerIncrement fuel = some s₂) :
    Increments s (ts ++ [s₂.ctask]) s₂ := by
  induction h with
  | nil => exact .cons hi .nil
  | aside ha _ ih => exact .aside ha (ih hi)
  | cons hi' _ ih => exact .cons hi' (ih hi)

theorem Contending.returns (h : s.Contending) (n : Nat) :
    ∃ ts s', s.Increments ts s' ∧ ts.length = n := by
  induction n with
  | zero => exact ⟨[], s, .nil, rfl⟩
  | succ n ih =>
    obtain ⟨ts, s₁, hr, hlen⟩ := ih
    have h₁ := (h.takes hr).1
    obtain ⟨fuel, s₂, hi⟩ := schedulerIncrement_terminates h₁.ok h₁.queued_ne
    refine ⟨ts ++ [s₂.ctask], s₂, hr.snoc hi, ?_⟩
    rw [List.length_append, hlen]
    rfl

theorem Contending.keys_perm (h : s.Contending) (hr : s.Increments us s₁) :
    (s.tasks.map taskRota.key).Perm (s₁.offered.map taskRota.key) :=
  h.tasks_keys.trans (h.takes hr).2.keys.symm

theorem Contending.length_offered (h : s.Contending) (hr : s.Increments us s₁) :
    s₁.offered.length = s.held.length := by
  have hlen := (h.keys_perm hr).length_eq
  rw [List.length_map, List.length_map] at hlen
  rw [held_eq_map, List.length_map, hlen]

theorem Contending.exists_offered (h : s.Contending) (hr : s.Increments us s₁)
    (ht : task ∈ s.tasks) : ∃ x ∈ s₁.offered, taskRota.key x = taskRota.key task :=
  List.mem_map.1 ((h.keys_perm hr).mem_iff.1 (List.mem_map_of_mem ht))

theorem Contending.selected (h : s.Contending) (hr : s.Increments us s₁)
    (hr' : s₁.Increments ts s₂) (ht : task ∈ s.tasks)
    (hlen : (s.held.length : Int) * (max task.priority 0 + 1) ≤ ts.length) :
    task.thread ∈ ts.map Task.thread := by
  have h₁ := (h.takes hr).1
  obtain ⟨x, hx, hkey⟩ := h.exists_offered hr ht
  have hmem : taskRota.key task ∈ ts.map taskRota.key := by
    rw [← hkey]
    apply (h₁.takes hr').2.mem h₁.offered_within hx
    rw [h.length_offered hr, hkey]
    have hfull : max task.priority 0 = (taskRota.full (taskRota.key task) : Nat) :=
      (Int.toNat_eq_max task.priority).symm
    rw [hfull] at hlen
    exact_mod_cast hlen
  obtain ⟨y, hy, hkey'⟩ := List.mem_map.1 hmem
  exact List.mem_map.2 ⟨y, hy, congrArg Prod.fst hkey'⟩

theorem Contending.evenly (h : s.Contending) (hzero : ∀ task ∈ s.tasks, task.priority = 0)
    (hr : s.Increments us s₁) (hr' : s₁.Increments ts s₂) (hlen : ts.length = s.held.length)
    (ht : task ∈ s.tasks) : (ts.map Task.thread).count task.thread = 1 := by
  have h₁ := (h.takes hr).1
  have hthreads : (s.tasks.map taskRota.key).map Prod.fst = s.held := by
    rw [held_eq_map, List.map_map]
    rfl
  have hnodup : (s₁.offered.map taskRota.key).Nodup := by
    rw [← (h.keys_perm hr).nodup_iff]
    apply List.Nodup.of_map Prod.fst
    rw [hthreads]
    exact h.nodup
  have hfull : ∀ x ∈ s₁.offered, taskRota.full (taskRota.key x) = 0 := by
    intro x hx
    obtain ⟨y, hy, hkey⟩ :=
      List.mem_map.1 ((h.keys_perm hr).mem_iff.2 (List.mem_map_of_mem hx))
    rw [← hkey]
    exact congrArg Int.toNat (hzero y hy)
  have hround := (h₁.takes hr').2.round h₁.offered_within hnodup hfull
    (hlen.trans (h.length_offered hr).symm)
  have hperm := ((h.keys_perm hr).trans hround).map Prod.fst
  rw [hthreads, List.map_map] at hperm
  change s.held.Perm (ts.map Task.thread) at hperm
  rw [← hperm.count_eq]
  apply List.count_eq_one_of_mem h.nodup
  rw [held_eq_map]
  exact List.mem_map_of_mem ht

/-- Among live threads none starves. -/
theorem no_starvation (h : s.Contending) : s.NoStarvation where
  returns := h.returns
  selected := fun _ _ _ _ hr hr' _ ht hlen => h.selected hr hr' ht hlen
  evenly := fun hzero _ _ _ _ hr hr' hlen _ ht => h.evenly hzero hr hr' hlen ht

/-- A thread of priority 0, and one of priority 2. -/
def uneven : Procs :=
  (((boot.create default [] 0).2.spawnThread 1 7 100).2.createThread 1 9 5000).2.schedulerSchedule
    1 2

theorem no_starvation_uneven : uneven.NoStarvation :=
  no_starvation {
    ok := (((boot_ok.create default [] 0).spawnThread 1 7 100).createThread (by decide) 9
      5000).schedulerSchedule 1 2
    nonempty := by decide
    room := by decide
    nodup := by decide
    live := by decide
    within := by decide }

end Procs
end Tupai
