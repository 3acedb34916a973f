import Tupai.Turns

namespace Tupai
open Lib
set_option autoImplicit true

/-- A task that gave up `n` of its turns. -/
def Task.lower (task : Task) (n : Int) : Task := { task with cpriority := task.cpriority - n }

/-- The loop of `scheduler_increment` chooses the first of the tasks that have the fewest turns
left, `m` of them. It takes `m` rounds through the queue, and then one pop for each task before that
one and a last one for the task itself. -/
structure Selects (q : Queue Task) (m : Nat) (before : List Task) (task : Task)
    (after : List Task) : Prop where
  turns : max task.cpriority 0 = m
  more : ∀ t ∈ before, m < max t.cpriority 0
  least : ∀ t ∈ after, m ≤ max t.cpriority 0
  looping : ∀ fuel ≤ m * q.length + before.length, selectTask fuel q = none
  ends : ∃ q' : Queue Task, q'.Ok SCHEDULE_SIZE ∧
    q'.toList SCHEDULE_SIZE = after.map (Task.lower · m) ++ before.map (Task.lower · (m + 1)) ∧
    ∀ fuel, m * q.length + before.length < fuel → selectTask fuel q = some (task.lower m, q')

variable {q : Queue Task}

theorem demote_iterate (n : Nat) : taskRota.tick^[n] = (Task.lower · n) := by
  funext task
  induction n generalizing task with
  | zero => rw [Function.iterate_zero_apply, Task.lower, Int.natCast_zero, Int.sub_zero]
  | succ n ih =>
    rw [Function.iterate_succ_apply, ih, Int.natCast_succ, Int.add_comm]
    exact congrArg (Task.mk _ _) (Int.sub_sub ..)

theorem selectTask_mono (h : selectTask fuel q = some r) (hle : fuel ≤ fuel') :
    selectTask fuel' q = some r := by
  induction fuel generalizing q fuel' with
  | zero => cases h
  | succ fuel ih =>
    obtain ⟨fuel', rfl⟩ := Nat.exists_eq_add_of_le' (Nat.le_trans (Nat.succ_pos fuel) hle)
    rw [selectTask_succ] at h ⊢
    split_ifs at h ⊢
    · exact h
    · exact ih h (Nat.le_of_succ_le_succ hle)

theorem selects_of_foremost (hq : q.Ok SCHEDULE_SIZE) (hne : q.length ≠ 0)
    (hlist : q.toList SCHEDULE_SIZE = before ++ task :: after)
    (h : taskRota.Foremost m before task after) : Selects q m before task after := by
  have hlen : (before ++ task :: after).length = q.length := by rw [← hlist, Queue.length_toList]
  have hrotate := Procs.selectTask_rotate hq hne
  rw [hlist] at hrotate
  constructor
  · have hturns : task.cpriority.toNat = m := h.turns
    omega
  · intro t ht
    have hmore : m < t.cpriority.toNat := h.more t ht
    omega
  · intro t ht
    have hleast : m ≤ t.cpriority.toNat := h.least t ht
    omega
  · intro fuel hfuel
    rw [← hlen] at hfuel
    have hnone := h.rotate_none hfuel
    rwa [hrotate, Option.map_eq_none_iff] at hnone
  · have hsome := h.rotate 0
    rw [hlen, hrotate, Option.map_eq_some_iff] at hsome
    obtain ⟨⟨task', q'⟩, hsel, he⟩ := hsome
    obtain ⟨rfl, hq'⟩ := Prod.mk.inj he
    rw [demote_iterate, demote_iterate] at hq'
    rw [demote_iterate] at hsel
    exact ⟨q', (selectTask_spec hq hne hsel).1, hq', fun fuel => selectTask_mono hsel⟩

/-- The loop ends, and chooses the first task that is owed least. -/
theorem selectTask_selects (hq : q.Ok SCHEDULE_SIZE) (hne : q.length ≠ 0) :
    ∃ m before task after, q.toList SCHEDULE_SIZE = before ++ task :: after ∧
      Selects q m before task after := by
  have hnil : q.toList SCHEDULE_SIZE ≠ [] := by
    rwa [← List.length_pos_iff_ne_nil, Queue.length_toList, Nat.pos_iff_ne_zero]
  obtain ⟨m, before, task, after, hlist, h⟩ := Rota.exists_foremost taskRota hnil
  exact ⟨m, before, task, after, hlist, selects_of_foremost hq hne hlist h⟩

def threeTasks : Queue Task :=
  (((Queue.empty .idle).push SCHEDULE_SIZE ⟨1, 2, 2⟩).push SCHEDULE_SIZE ⟨2, 1, 1⟩).push
    SCHEDULE_SIZE ⟨3, 4, 1⟩

theorem selectTask_selects_threeTasks :
    (selectTask 4 threeTasks).isNone ∧ (selectTask 5 threeTasks).map (·.1.thread) = some 2 ∧
      ∃ m before task after, threeTasks.toList SCHEDULE_SIZE = before ++ task :: after ∧
        Selects threeTasks m before task after := by
  have hempty : (Queue.empty Task.idle).Ok SCHEDULE_SIZE := Queue.empty_ok (by decide) _
  exact ⟨by decide +kernel, by decide +kernel,
    selectTask_selects (((hempty.push _).1.push _).1.push _).1 (by decide)⟩

end Tupai
