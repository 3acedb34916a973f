import Tupai.Lib.Transition
import Tupai.Scheduler

namespace Tupai
open Lib
set_option autoImplicit true

/-- A state of the scheduler, with the threads that were handed to it and those that an
increment has found dead as the current task. -/
structure Roster where
  procs : Procs
  scheduled : List Int
  removed : List Int

def Roster.boot : Roster := ⟨.boot, [], []⟩

/-- Some scheduled thread is not dead. -/
def Roster.Lively (r : Roster) : Prop := ∃ t ∈ r.scheduled, r.procs.getState t ≠ .DEAD

/-- The runs of the scheduler. A thread is scheduled at most once, and only while there is room
for one more task. -/
inductive RosterStep : Roster → Roster → Prop where
  | create (r : Roster) (leftover : Proc) (name : Chars) (dir : Int) :
      RosterStep r { r with procs := (r.procs.create leftover name dir).2 }
  | createThread (r : Roster) (p : Int) (entry nstack : Nat) : r.procs.procTable.get p ≠ none →
      RosterStep r { r with procs := (r.procs.createThread p entry nstack).2 }
  | schedule (r : Roster) (t priority : Int) : 0 ≤ t → t < r.procs.threadCounter →
      t ∉ r.scheduled → r.procs.held.length < SCHEDULE_SIZE →
      RosterStep r ⟨r.procs.schedulerSchedule t priority, t :: r.scheduled, r.removed⟩
  | spawn (r : Roster) (p : Int) (entry nstack : Nat) : r.procs.procTable.get p ≠ none →
      r.procs.held.length < SCHEDULE_SIZE →
      RosterStep r ⟨(r.procs.spawnThread p entry nstack).2,
        r.procs.threadCounter :: r.scheduled, r.removed⟩
  | kill (r : Roster) (t : Int) : RosterStep r { r with procs := (r.procs.kill t).2 }
  | increment (r : Roster) (fuel : Nat) : r.Lively → r.procs.schedulerIncrement fuel = some s →
      RosterStep r ⟨s, r.scheduled, r.procs.retired ++ r.removed⟩
  | preempt (r : Roster) (fuel oldStack : Nat) : r.Lively →
      r.procs.schedulerPreempt fuel oldStack = some (d, s) →
      RosterStep r ⟨s, r.scheduled, r.procs.retired ++ r.removed⟩

/-- No thread is lost or duplicated. -/
structure RosterSound (r : Roster) : Prop where
  once : ∀ t ∈ r.scheduled, t ∉ r.removed → r.procs.held.count t = 1
  gone : ∀ t ∈ r.removed, t ∉ r.procs.held ∧ r.procs.threadTable.get t = none
  returns : r.Lively →
    (∃ fuel, ∃ s : Procs, r.procs.schedulerIncrement fuel = some s) ∧
    ∀ oldStack, ∃ fuel d, ∃ s : Procs, r.procs.schedulerPreempt fuel oldStack = some (d, s)

structure RosterOk (r : Roster) : Prop where
  ok : r.procs.Ok
  known : r.scheduled.Perm (r.procs.held ++ r.removed)
  nodup : r.scheduled.Nodup
  created : ∀ t ∈ r.scheduled, 0 ≤ t ∧ t < r.procs.threadCounter
  gone : ∀ t ∈ r.removed, r.procs.threadTable.get t = none
  room : r.procs.held.length ≤ SCHEDULE_SIZE

variable {r : Roster}

theorem RosterOk.removed_lt (h : RosterOk r) (ht : t ∈ r.removed) : t < r.procs.threadCounter :=
  (h.created t (h.known.mem_iff.2 (List.mem_append_right _ ht))).2

theorem RosterOk.frame (h : RosterOk r) {s : Procs} (ok : s.Ok) (hheld : s.held = r.procs.held)
    (hcount : r.procs.threadCounter ≤ s.threadCounter)
    (hgone : ∀ t < r.procs.threadCounter, r.procs.threadTable.get t = none →
      s.threadTable.get t = none) : RosterOk { r with procs := s } where
  ok := ok
  known := by
    change r.scheduled.Perm (s.held ++ r.removed)
    rw [hheld]
    exact h.known
  nodup := h.nodup
  created := fun t ht => ⟨(h.created t ht).1, lt_of_lt_of_le (h.created t ht).2 hcount⟩
  gone := fun t ht => hgone t (h.removed_lt ht) (h.gone t ht)
  room := by
    change s.held.length ≤ _
    rw [hheld]
    exact h.room

theorem RosterOk.modifyThread (h : RosterOk r) (thread : Int) {f : Thread → Thread}
    (hf : ∀ th, (f th).proc = th.proc) :
    RosterOk { r with procs := r.procs.modifyThread thread f } :=
  h.frame (h.ok.modifyThread thread hf) rfl (le_refl _) fun t _ ht =>
    (Procs.get_modifyThread_none r.procs thread f t).2 ht

theorem RosterOk.schedule (h : RosterOk r) (hpos : 0 ≤ t) (hlt : t < r.procs.threadCounter)
    (hnew : t ∉ r.scheduled) (hroom : r.procs.held.length < SCHEDULE_SIZE) (priority : Int) :
    RosterOk ⟨r.procs.schedulerSchedule t priority, t :: r.scheduled, r.removed⟩ := by
  have hheld := Procs.held_schedulerSchedule h.ok hroom t priority
  refine ⟨h.ok.schedulerSchedule t priority, ?_, h.nodup.cons hnew, ?_, h.gone, ?_⟩
  · rw [hheld, List.append_assoc]
    exact (h.known.cons t).trans List.perm_middle.symm
  · exact List.forall_mem_cons.2 ⟨⟨hpos, hlt⟩, h.created⟩
  · rw [hheld, List.length_append]
    exact hroom

theorem RosterOk.enrol (h : RosterOk r) (hp : r.procs.procTable.get p ≠ none) (proc : Proc)
    (entry nstack : Nat) : RosterOk { r with procs := r.procs.enrol p proc entry nstack } := by
  apply h.frame (h.ok.enrol hp proc entry nstack) rfl
  · rw [Procs.threadCounter_enrol]
    omega
  · intro t ht hn
    rw [Procs.get_enrol h.ok, if_neg (fun he => by omega), hn]

theorem RosterOk.spawn (h : RosterOk r) (hp : r.procs.procTable.get p ≠ none)
    (hroom : r.procs.held.length < SCHEDULE_SIZE) (entry nstack : Nat) :
    RosterOk ⟨(r.procs.spawnThread p entry nstack).2,
      r.procs.threadCounter :: r.scheduled, r.removed⟩ := by
  obtain ⟨proc, hproc⟩ := Option.ne_none_iff_exists'.1 hp
  rw [Procs.spawnThread_some hproc]
  apply (h.enrol hp proc entry nstack).schedule h.ok.threadPos
  · rw [Procs.threadCounter_enrol]
    omega
  · exact fun ht => lt_irrefl _ (h.created _ ht).2
  · exact hroom

theorem RosterOk.queued_ne_nil (h : RosterOk r) (hl : r.Lively) :
    r.procs.retireTask.queued ≠ [] := by
  obtain ⟨t, ht, hd⟩ := hl
  apply List.ne_nil_of_mem (a := t)
  have hkeep := (Procs.held_retireTask h.ok h.room).mem_iff (a := t)
  rcases List.mem_append.1 (h.known.mem_iff.1 ht) with hheld | hrem
  · rcases List.mem_append.1 (hkeep.1 hheld) with hret | hq
    · exact absurd (Procs.getState_of_retired hret) hd
    · exact hq
  · exact absurd (Procs.getState_eq_dead (h.gone t hrem)) hd

theorem RosterOk.incremented (h : RosterOk r) (hi : Procs.Incremented r.procs s) :
    RosterOk ⟨s, r.scheduled, r.procs.retired ++ r.removed⟩ := by
  have hkeep := Procs.held_retireTask h.ok h.room
  have hsched : s.ctask.thread ∈ r.scheduled := by
    rw [h.known.mem_iff, List.mem_append, hkeep.mem_iff, List.mem_append, hi.chosen.mem_iff]
    exact .inl (.inr List.mem_cons_self)
  have hheld : s.held = s.ctask.thread :: s.queued := by
    rw [Procs.held, Procs.running_of_ne]
    · rfl
    · intro he
      have := (h.created _ hsched).1
      rw [he] at this
      exact absurd this (by decide)
  have hperm : r.procs.held.Perm (r.procs.retired ++ s.held) := by
    rw [hheld]
    exact hkeep.trans (hi.chosen.append_left _)
  refine ⟨hi.ok, ?_, h.nodup, ?_, ?_, ?_⟩
  · apply (h.known.trans (hperm.append_right _)).trans
    rw [← List.append_assoc]
    exact List.perm_append_comm.append_right _
  · intro t ht
    change 0 ≤ t ∧ t < s.threadCounter
    rw [hi.threadCounter]
    exact h.created t ht
  · intro t ht
    change s.threadTable.get t = none
    rw [hi.threadTable, Procs.get_retireTask h.ok]
    split_ifs with hret
    · rfl
    · exact h.gone t ((List.mem_append.1 ht).resolve_left hret)
  · have hlen := hperm.length_eq
    have hroom := h.room
    rw [List.length_append] at hlen
    change s.held.length ≤ SCHEDULE_SIZE
    omega

theorem RosterOk.saveStack (h : RosterOk r) (oldStack : Nat) :
    RosterOk { r with procs := r.procs.saveStack oldStack } := by
  rw [Procs.saveStack]
  split_ifs
  · exact h.modifyThread _ fun _ => rfl
  · exact h

theorem RosterOk.lively_saveStack (h : RosterOk r) (hl : r.Lively) (oldStack : Nat) :
    Roster.Lively { r with procs := r.procs.saveStack oldStack } := by
  obtain ⟨t, ht, hd⟩ := hl
  refine ⟨t, ht, ?_⟩
  change (r.procs.saveStack oldStack).getState t ≠ .DEAD
  rwa [(Procs.saveStack_spec h.ok oldStack).2.1]

theorem RosterOk.increment (h : RosterOk r) (hl : r.Lively)
    (hi : r.procs.schedulerIncrement fuel = some s) :
    RosterOk ⟨s, r.scheduled, r.procs.retired ++ r.removed⟩ :=
  h.incremented (Procs.schedulerIncrement_spec h.ok (h.queued_ne_nil hl) hi)

theorem RosterOk.preempt (h : RosterOk r) (hl : r.Lively)
    (hpre : r.procs.schedulerPreempt fuel oldStack = some (d, s)) :
    RosterOk ⟨s, r.scheduled, r.procs.retired ++ r.removed⟩ := by
  obtain ⟨s₁, hi, hs⟩ := Procs.schedulerPreempt_some hpre
  have h₁ := (h.saveStack oldStack).increment (h.lively_saveStack hl oldStack) hi
  rw [Procs.saveStack_retired h.ok] at h₁
  rcases hs with rfl | ⟨_, rfl⟩
  · exact h₁
  · exact h₁.modifyThread _ fun _ => rfl

theorem RosterOk.step (h : RosterOk r) (ht : RosterStep r r') : RosterOk r' := by
  cases ht with
  | create _ leftover name dir =>
    exact h.frame (h.ok.create leftover name dir) rfl (le_refl _) fun _ _ hn => hn
  | createThread _ p entry nstack hp =>
    apply h.frame (h.ok.createThread hp entry nstack) rfl
    · exact Int.le_of_lt (Int.lt_succ _)
    · intro t hlt hn
      rw [Procs.get_createThread h.ok, if_neg (fun he => by omega), hn]
  | schedule _ t priority hpos hlt hnew hroom => exact h.schedule hpos hlt hnew hroom priority
  | spawn _ p entry nstack hp hroom => exact h.spawn hp hroom entry nstack
  | kill _ t => exact h.modifyThread t fun _ => rfl
  | increment _ fuel hl hi => exact h.increment hl hi
  | preempt _ fuel oldStack hl hpre => exact h.preempt hl hpre

theorem RosterOk.boot : RosterOk .boot where
  ok := Procs.boot_ok
  known := .refl _
  nodup := List.nodup_nil
  created := fun _ ht => absurd ht List.not_mem_nil
  gone := fun _ ht => absurd ht List.not_mem_nil
  room := Nat.zero_le _

theorem RosterOk.returns (h : RosterOk r) (hl : r.Lively) :
    ∃ fuel, ∃ s : Procs, r.procs.schedulerIncrement fuel = some s :=
  Procs.schedulerIncrement_terminates h.ok (h.queued_ne_nil hl)

theorem RosterOk.sound (h : RosterOk r) : RosterSound r := by
  have hnodup : (r.procs.held ++ r.removed).Nodup := h.known.nodup_iff.1 h.nodup
  obtain ⟨hheld, _, hdisj⟩ := List.nodup_append.1 hnodup
  refine ⟨?_, ?_, ?_⟩
  · intro t ht hrem
    apply List.count_eq_one_of_mem hheld
    exact (List.mem_append.1 (h.known.mem_iff.1 ht)).resolve_right hrem
  · exact fun t ht => ⟨fun hh => hdisj t hh t ht rfl, h.gone t ht⟩
  · intro hl
    refine ⟨h.returns hl, fun oldStack => ?_⟩
    obtain ⟨fuel, s₁, hi⟩ := (h.saveStack oldStack).returns (h.lively_saveStack hl oldStack)
    exact ⟨fuel, Procs.schedulerPreempt_terminates hi⟩

/-- In every run the scheduler keeps each thread exactly once until it finds it dead. -/
theorem no_thread_lost (hr : Reachable (· = Roster.boot) RosterStep r) : RosterSound r := by
  apply RosterOk.sound
  apply hr.invariant
  · rintro _ rfl
    exact .boot
  · exact fun _ _ h ht => h.step ht

theorem pair_reachable : Reachable (· = Roster.boot) RosterStep ⟨.pair, [1, 0], []⟩ := by
  apply Reachable.step (s := ⟨((Procs.boot.create default [] 0).2.spawnThread 1 7 100).2, [0], []⟩)
  · apply Reachable.step (s := ⟨(Procs.boot.create default [] 0).2, [], []⟩)
    · exact .step (.init rfl) (.create .boot default [] 0)
    · exact .spawn _ 1 7 100 (Option.some_ne_none _) (by decide)
  · exact .spawn _ 1 9 5000 (Option.some_ne_none _) (by decide)

theorem no_thread_lost_pair :
    RosterSound ⟨((Procs.started.kill 0).2.schedulerIncrement 1).getD .boot, [1, 0], [0]⟩ := by
  have hrun : Reachable (· = Roster.boot) RosterStep ⟨(Procs.started.kill 0).2, [1, 0], []⟩ :=
    (pair_reachable.step (.preempt _ 1 5 ⟨0, by decide, by decide⟩ Procs.started_eq)).step
      (.kill _ 0)
  have hlive : Roster.Lively ⟨(Procs.started.kill 0).2, [1, 0], []⟩ := ⟨1, by decide, by decide⟩
  have hi : ((Procs.started.kill 0).2.schedulerIncrement 1).isSome = true := by decide +kernel
  have hinc := RosterStep.increment _ 1 hlive (Option.some_get hi).symm
  rw [← Option.get_eq_getD (h := hi)]
  exact no_thread_lost (hrun.step hinc)

end Tupai
