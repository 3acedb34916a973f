import Tupai.Admission

namespace Tupai
open Lib
set_option autoImplicit true

/-- The queues that the loop of `scheduler_increment` pops, one after the other. -/
def popped : (fuel : Nat) → Queue Task → List (Queue Task)
  | 0, _ => []
  | fuel + 1, schedule =>
    let (ctask, rest) := schedule.pop SCHEDULE_SIZE
    schedule ::
      if ctask.cpriority ≤ 0 then [] else popped fuel (rest.push SCHEDULE_SIZE ctask.demote)

theorem popped_succ (fuel : Nat) (q : Queue Task) :
    popped (fuel + 1) q = q ::
      if (q.pop SCHEDULE_SIZE).1.cpriority ≤ 0 then []
      else popped fuel
        ((q.pop SCHEDULE_SIZE).2.push SCHEDULE_SIZE (q.pop SCHEDULE_SIZE).1.demote) :=
  rfl

theorem mem_popped (fuel : Nat) (q : Queue Task) : q ∈ popped (fuel + 1) q := by
  rw [popped_succ]
  exact List.mem_cons_self

/-- The loop puts back what it does not choose, so a queue that it finds filled stays so. -/
theorem popped_filled (hq : q.Ok SCHEDULE_SIZE) (hne : q.length ≠ 0)
    (hmem : q' ∈ popped fuel q) : q'.Ok SCHEDULE_SIZE ∧ q'.length ≠ 0 := by
  induction fuel generalizing q with
  | zero => cases hmem
  | succ fuel ih =>
    rw [popped_succ] at hmem
    rcases List.mem_cons.1 hmem with rfl | hmem
    · exact ⟨hq, hne⟩
    · split_ifs at hmem with hc
      · cases hmem
      · obtain ⟨hok, _, hlen⟩ := requeue hq hne (q.pop SCHEDULE_SIZE).1.demote
        exact ih hok (by rwa [hlen]) hmem

namespace Procs

/-- A preemption pops no empty queue, and dispatches a thread that was scheduled. -/
structure PopsFilled (s : Procs) (oldStack : Nat) : Prop where
  filled : ∀ fuel, ∀ q ∈ popped fuel (s.saveStack oldStack).retireTask.schedule, 0 < q.len
  unwrapped : ∀ fuel, ∀ q ∈ popped fuel (s.saveStack oldStack).retireTask.schedule,
    (q.pop SCHEDULE_SIZE).2.len < q.len
  dispatched : ∀ fuel d (s' : Procs), s.schedulerPreempt fuel oldStack = some (d, s') →
    s'.ctask.thread ∈ s.held

def Filled (s : Procs) : ThreadCall → Prop
  | .schedulerPreempt _ oldStack => s.PopsFilled oldStack
  | _ => True

variable {s : Procs}

theorem retireTask_queued_ne_iff (ok : s.Ok) : s.retireTask.queued ≠ [] ↔
    s.queued ≠ [] ∨ s.ctask.thread ≠ ID_INVALID ∧ s.getState s.ctask.thread ≠ .DEAD := by
  constructor
  · intro hne
    obtain ⟨t, ht⟩ := List.exists_mem_of_ne_nil _ hne
    by_cases hc : s.ctask.thread = ID_INVALID
    · rw [(retireTask_idle hc).1] at hne
      exact .inl hne
    · rcases mem_retireTask_queued ok ht with hq | ⟨rfl, hd⟩
      · exact .inl (List.ne_nil_of_mem hq)
      · exact .inr ⟨hc, hd⟩
  · exact retireTask_queued_ne ok

theorem QueueSound.saveStack (h : s.QueueSound) (oldStack : Nat) :
    (s.saveStack oldStack).QueueSound := by
  rw [Procs.saveStack]
  split_ifs
  · exact h.modifyThread _ fun _ => rfl
  · exact h

theorem QueueSound.dispatched (h : s.QueueSound)
    (hne : (s.saveStack oldStack).retireTask.queued ≠ [])
    (hp : s.schedulerPreempt fuel oldStack = some (d, s')) : s'.ctask.thread ∈ s.held := by
  have hsave := h.saveStack oldStack
  obtain ⟨s₁, hi, hs⟩ := schedulerPreempt_some hp
  have hinc := schedulerIncrement_spec hsave.ok hne hi
  have hmem : s₁.ctask.thread ∈ s.held := by
    rw [← saveStack_held s oldStack]
    exact hsave.offered.subset (hinc.chosen.mem_iff.2 List.mem_cons_self)
  rcases hs with rfl | ⟨_, rfl⟩
  · exact hmem
  · exact hmem

theorem QueueSound.popsFilled_iff (h : s.QueueSound) (oldStack : Nat) :
    s.PopsFilled oldStack ↔
      s.queued ≠ [] ∨ s.ctask.thread ≠ ID_INVALID ∧ s.getState s.ctask.thread ≠ .DEAD := by
  obtain ⟨ok, hstate, _⟩ := saveStack_spec h.ok oldStack
  have hoffers := retireTask_queued_ne_iff ok
  rw [saveStack_queued, saveStack_ctask, hstate] at hoffers
  rw [← hoffers]
  constructor
  · intro hfilled
    have hpos := hfilled.filled 1 _ (mem_popped 0 _)
    rw [Queue.len, ← length_queued] at hpos
    exact List.ne_nil_of_length_pos hpos
  · intro hne
    have hlen := retireTask_schedule_ne hne
    refine ⟨fun fuel q hq => ?_, fun fuel q hq => ?_, fun fuel d s' hp => h.dispatched hne hp⟩
    · have hne' := (popped_filled ok.retireTask.queueOk hlen hq).2
      rw [Queue.len]
      exact Nat.pos_of_ne_zero hne'
    · obtain ⟨hok, hne'⟩ := popped_filled ok.retireTask.queueOk hlen hq
      have hlen' := (pop_task hok hne').2.2
      rw [Queue.len, Queue.len, hlen']
      exact Nat.lt_succ_self _

theorem QueueSound.filled_iff (h : s.QueueSound) (c : ThreadCall) : s.Filled c ↔ s.Offers c := by
  cases c with
  | schedulerPreempt fuel oldStack => exact h.popsFilled_iff oldStack
  | create | spawnThread | kill => exact .rfl

/-- A run pops no empty queue exactly when every preemption finds a task to take: one in the
queue, or a current one that lives. -/
theorem run_filled_iff (calls : List ThreadCall) :
    Throughout call Filled boot calls ↔ Throughout call Offers boot calls := by
  apply Throughout.iff_guard (I := QueueSound)
  · exact fun _ c h => h.filled_iff c
  · exact fun _ c _ h hc he => h.step ⟨c, hc, he⟩
  · exact .boot

def alone : Procs :=
  ((((boot.create default [] 0).2.spawnThread 1 7 100).2.schedulerPreempt 1 0).get rfl).2

/-- The only thread dies, and the timer looks for the next one. -/
def lastDeath : List ThreadCall :=
  [.create default [] 0, .spawnThread 1 7 100, .schedulerPreempt 1 0, .kill 0,
    .schedulerPreempt 1 0]

theorem run_not_filled : ¬ Throughout call Filled boot lastDeath ∧
    ((alone.kill 0).2.schedulerPreempt 1 0).any (fun r =>
      r.2.schedule.length = 2 ^ 64 - 1 ∧ r.2.ctask.thread = 0 ∧
        (r.2.threadTable.get 0).isNone) := by
  constructor
  · rintro ⟨-, h⟩
    obtain ⟨-, h⟩ := h _ rfl
    obtain ⟨-, h⟩ := h _ rfl
    obtain ⟨-, h⟩ := h alone rfl
    obtain ⟨hfilled, -⟩ := h _ rfl
    exact absurd (hfilled.filled 1 _ (mem_popped 0 _)) (by decide +kernel)
  · decide +kernel

end Procs
end Tupai
