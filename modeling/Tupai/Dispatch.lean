import Tupai.Lib.Transition
import Tupai.Scheduler

namespace Tupai
open Lib
set_option autoImplicit true

inductive ThreadCall where
  | create (leftover : Proc) (name : Chars) (dir : Int)
  | spawnThread (this : Int) (entry nstack : Nat)
  | kill (thread : Int)
  | schedulerPreempt (fuel oldStack : Nat)

namespace Procs

def call (s : Procs) : ThreadCall → Option Procs
  | .create leftover name dir => some (s.create leftover name dir).2
  | .spawnThread this entry nstack => some (s.spawnThread this entry nstack).2
  | .kill thread => some (s.kill thread).2
  | .schedulerPreempt fuel oldStack => (s.schedulerPreempt fuel oldStack).map Prod.snd

/-- The thread that the scheduler has selected is in the table and not dead. -/
def SelectedAlive (s : Procs) : Prop :=
  s.threadTable.get s.ctask.thread ≠ none ∧ s.getState s.ctask.thread ≠ .DEAD

/-- No thread in the queue is killed, no thread is spawned without a table slot, and no
preemption happens without a live thread to go to. -/
def Harmless (s : Procs) : ThreadCall → Prop
  | .create .. => True
  | .spawnThread this _ _ =>
    s.procTable.get this ≠ none → s.threadTable.size < HASHTABLE_CAPACITY
  | .kill thread => thread ∉ s.queued
  | .schedulerPreempt .. =>
    s.queued ≠ [] ∨ s.ctask.thread ≠ ID_INVALID ∧ s.getState s.ctask.thread ≠ .DEAD

def CallStep (s s' : Procs) : Prop := ∃ c, s.call c = some s'

def HarmlessStep (s s' : Procs) : Prop := ∃ c, s.Harmless c ∧ s.call c = some s'

/-- The invariant of harmless runs. -/
structure QueueAlive (s : Procs) : Prop where
  ok : s.Ok
  alive : ∀ t ∈ s.queued, s.getState t ≠ .DEAD

variable {s : Procs}

theorem getState_setState (s : Procs) (thread : Int) (state : ThreadState) (t : Int)
    (hd : state ≠ .DEAD) (h : s.getState t ≠ .DEAD) :
    (s.setState thread state).getState t ≠ .DEAD := by
  obtain ⟨th, hth⟩ := Option.ne_none_iff_exists'.1 (get_of_not_dead h)
  rw [getState, hth] at h
  rw [setState, getState, get_modifyThread, hth]
  split_ifs
  · exact hd
  · exact h

theorem QueueAlive.boot : boot.QueueAlive := ⟨boot_ok, fun _ ht => absurd ht List.not_mem_nil⟩

theorem QueueAlive.create (h : s.QueueAlive) (leftover : Proc) (name : Chars) (dir : Int) :
    (s.create leftover name dir).2.QueueAlive :=
  ⟨h.ok.create leftover name dir, h.alive⟩

theorem QueueAlive.kill (h : s.QueueAlive) (hk : thread ∉ s.queued) :
    (s.kill thread).2.QueueAlive := by
  refine ⟨h.ok.kill thread, fun t ht => ?_⟩
  rw [getState_kill, if_neg]
  · exact h.alive t ht
  · rintro rfl
    exact hk ht

/-- Scheduling adds the new thread, and a full queue drops its oldest one. -/
theorem mem_queued_schedulerSchedule (ok : s.Ok)
    (h : t ∈ (s.schedulerSchedule thread priority).queued) : t ∈ s.queued ∨ t = thread :=
  mem_queued_push ok h

theorem QueueAlive.spawnThread (h : s.QueueAlive)
    (hroom : s.procTable.get this ≠ none → s.threadTable.size < HASHTABLE_CAPACITY)
    (entry nstack : Nat) : (s.spawnThread this entry nstack).2.QueueAlive := by
  cases hp : s.procTable.get this with
  | none =>
    rw [spawnThread_none hp]
    exact h
  | some proc =>
    have hlive : s.procTable.get this ≠ none := by rw [hp]; exact Option.some_ne_none proc
    have ok' := h.ok.enrol hlive proc entry nstack
    rw [spawnThread_some hp]
    refine ⟨ok'.schedulerSchedule _ _, fun t ht => ?_⟩
    change (s.enrol this proc entry nstack).getState t ≠ .DEAD
    rw [getState, get_enrol h.ok]
    rcases mem_queued_schedulerSchedule ok' ht with hold | rfl
    · have hd := h.alive t hold
      have hlt := (h.ok.threadKeys t (get_of_not_dead hd)).2
      rwa [if_neg fun he => ne_of_lt hlt he.1]
    · rw [if_pos ⟨rfl, hroom hlive⟩]
      exact ThreadState.noConfusion

theorem retireTask_queued_ne (ok : s.Ok)
    (h : s.queued ≠ [] ∨ s.ctask.thread ≠ ID_INVALID ∧ s.getState s.ctask.thread ≠ .DEAD) :
    s.retireTask.queued ≠ [] := by
  by_cases hc : s.ctask.thread ≠ ID_INVALID ∧ s.getState s.ctask.thread ≠ .DEAD
  · rw [(retireTask_alive hc.1 hc.2).1, queued, (ok.queueOk.push _).2, List.map_append]
    exact List.append_ne_nil_of_right_ne_nil _ (List.cons_ne_nil _ _)
  · have hq := h.resolve_right hc
    by_cases hi : s.ctask.thread = ID_INVALID
    · rwa [(retireTask_idle hi).1]
    · have hd : s.getState s.ctask.thread = .DEAD := by_contra fun hd => hc ⟨hi, hd⟩
      rwa [(retireTask_dead hi hd).1, queued, schedule_deleteThread]

theorem QueueAlive.saveStack (h : s.QueueAlive) (oldStack : Nat) :
    (s.saveStack oldStack).QueueAlive := by
  obtain ⟨ok', hstate, _⟩ := saveStack_spec h.ok oldStack
  refine ⟨ok', fun t ht => ?_⟩
  rw [saveStack_queued] at ht
  rw [hstate]
  exact h.alive t ht

theorem QueueAlive.increment (h : s.QueueAlive) (hi : Incremented s s') :
    s'.QueueAlive ∧ s'.getState s'.ctask.thread ≠ .DEAD := by
  have halive : ∀ t ∈ s.retireTask.queued, s'.getState t ≠ .DEAD := by
    intro t ht
    have he : s'.getState t = s.getState t := by
      rw [← getState_retireTask h.ok, getState, getState, hi.threadTable]
    rw [he]
    rcases mem_retireTask_queued h.ok ht with hq | ⟨_, hd⟩
    · exact h.alive t hq
    · exact hd
  refine ⟨⟨hi.ok, fun t ht => ?_⟩, ?_⟩
  · exact halive t (hi.chosen.mem_iff.2 (List.mem_cons_of_mem _ ht))
  · exact halive _ (hi.chosen.mem_iff.2 List.mem_cons_self)

theorem saveStack_queued_ne (ok : s.Ok) (oldStack : Nat)
    (hc : s.queued ≠ [] ∨ s.ctask.thread ≠ ID_INVALID ∧ s.getState s.ctask.thread ≠ .DEAD) :
    (s.saveStack oldStack).retireTask.queued ≠ [] := by
  obtain ⟨ok', hstate, _⟩ := saveStack_spec ok oldStack
  apply retireTask_queued_ne ok'
  rwa [saveStack_queued, saveStack_ctask, hstate]

theorem QueueAlive.preempt (h : s.QueueAlive)
    (hc : s.Harmless (.schedulerPreempt fuel oldStack))
    (hp : s.schedulerPreempt fuel oldStack = some (d, s')) :
    s'.QueueAlive ∧ s'.SelectedAlive := by
  obtain ⟨s₁, hi, hs⟩ := schedulerPreempt_some hp
  obtain ⟨h₁, hsel⟩ := (h.saveStack oldStack).increment
    (schedulerIncrement_spec (h.saveStack oldStack).ok (saveStack_queued_ne h.ok oldStack hc) hi)
  rcases hs with rfl | ⟨_, rfl⟩
  · exact ⟨h₁, get_of_not_dead hsel, hsel⟩
  · have hne : ThreadState.ACTIVE ≠ .DEAD := ThreadState.noConfusion
    have hsel' := getState_setState s₁ s₁.ctask.thread .ACTIVE s₁.ctask.thread hne hsel
    refine ⟨⟨h₁.ok.setState .., fun t ht => ?_⟩, get_of_not_dead hsel', hsel'⟩
    exact getState_setState s₁ s₁.ctask.thread .ACTIVE t hne (h₁.alive t ht)

theorem QueueAlive.step (h : s.QueueAlive) (ht : s.HarmlessStep s') : s'.QueueAlive := by
  obtain ⟨c, hc, he⟩ := ht
  cases c with
  | create leftover name dir =>
    cases he
    exact h.create leftover name dir
  | spawnThread this entry nstack =>
    cases he
    exact h.spawnThread hc entry nstack
  | kill thread =>
    cases he
    exact h.kill hc
  | schedulerPreempt fuel oldStack =>
    obtain ⟨⟨d, s₂⟩, hp, rfl⟩ := Option.map_eq_some_iff.1 he
    exact (h.preempt hc hp).1

/-- In a run of harmless calls every preemption returns, and selects a live thread. -/
theorem selected_alive (hr : Reachable (· = boot) HarmlessStep s) (oldStack : Nat)
    (hc : s.queued ≠ [] ∨ s.ctask.thread ≠ ID_INVALID ∧ s.getState s.ctask.thread ≠ .DEAD) :
    (∃ fuel d, ∃ s' : Procs, s.schedulerPreempt fuel oldStack = some (d, s')) ∧
      ∀ fuel d (s' : Procs), s.schedulerPreempt fuel oldStack = some (d, s') →
        s'.SelectedAlive := by
  have h : s.QueueAlive := by
    apply hr.invariant
    · rintro _ rfl
      exact .boot
    · exact fun _ _ h ht => h.step ht
  refine ⟨?_, fun fuel d s' hp => (h.preempt hc hp).2⟩
  obtain ⟨fuel, s₁, hi⟩ := schedulerIncrement_terminates (h.saveStack oldStack).ok
    (saveStack_queued_ne h.ok oldStack hc)
  exact ⟨fuel, schedulerPreempt_terminates hi⟩

theorem pair_harmless : Reachable (· = boot) HarmlessStep pair := by
  apply Reachable.step (s := ((boot.create default [] 0).2.spawnThread 1 7 100).2)
  · apply Reachable.step (s := (boot.create default [] 0).2)
    · exact .step (.init rfl) ⟨.create default [] 0, trivial, rfl⟩
    · exact ⟨.spawnThread 1 7 100, fun _ => by decide, rfl⟩
  · exact ⟨.spawnThread 1 9 5000, fun _ => by decide, rfl⟩

theorem selected_alive_pair : started.SelectedAlive :=
  (selected_alive pair_harmless 5 (.inl (by decide))).2 1 (.bootstrap 7 2148) started started_eq

theorem started_reachable : Reachable (· = boot) CallStep started := by
  have hpair : Reachable (· = boot) CallStep pair :=
    pair_harmless.mono fun _ _ ⟨c, _, h⟩ => ⟨c, h⟩
  refine hpair.step ⟨.schedulerPreempt 1 5, ?_⟩
  rw [call, started_eq]
  rfl

/-- The second thread is killed in the queue, and the next preemption selects it. -/
theorem dead_selected : ∃ s s' : Procs, Reachable (· = boot) CallStep s ∧
    s.schedulerPreempt 1 0 = some (.resume 7048, s') ∧ s'.ctask.thread = 1 ∧
    s'.getState 1 = .DEAD ∧ ¬ s'.SelectedAlive := by
  have hrun : ((started.kill 1).2.schedulerPreempt 1 0).any fun r =>
      r.1 = .resume 7048 ∧ r.2.ctask.thread = 1 ∧ r.2.getState 1 = .DEAD := by decide +kernel
  cases hp : (started.kill 1).2.schedulerPreempt 1 0 with
  | none => rw [hp] at hrun; cases hrun
  | some r =>
    rw [hp, Option.any_some, decide_eq_true_eq] at hrun
    obtain ⟨hd, hs, hdead⟩ := hrun
    refine ⟨_, r.2, started_reachable.step ⟨.kill 1, rfl⟩, ?_, hs, hdead, ?_⟩
    · rw [hp, ← hd]
    · rw [SelectedAlive, hs]
      exact fun h => h.2 hdead

end Procs
end Tupai
