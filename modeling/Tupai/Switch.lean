import Tupai.Lib.Transition
import Tupai.Scheduler

namespace Tupai
open Lib
set_option autoImplicit true

/-- A run of the scheduler: the entry and the stack block of every thread, the threads selected so
far, the newest first, and what was passed when each of them was last switched away from. -/
structure SwitchRun where
  procs : Procs
  made : Int → Option (Nat × Nat)
  selections : List Int
  saved : Int → Nat

def SwitchRun.boot : SwitchRun := ⟨.boot, fun _ => none, [], fun _ => 0⟩

/-- `scheduler_preempt(old_stack)` switches away from the thread selected last. -/
def SwitchRun.savedNow (r : SwitchRun) (oldStack : Nat) : Int → Nat :=
  match r.selections with
  | [] => r.saved
  | current :: _ => Function.update r.saved current oldStack

/-- Spawning and switching, with at most 256 scheduled threads, and at least one for a switch. -/
inductive SwitchStep : SwitchRun → SwitchRun → Prop where
  | create (r : SwitchRun) (leftover : Proc) (name : Chars) (dir : Int) :
      SwitchStep r { r with procs := (r.procs.create leftover name dir).2 }
  | spawnThread (r : SwitchRun) (p : Int) (entry nstack : Nat) : r.procs.procTable.get p ≠ none →
      r.procs.held.length < SCHEDULE_SIZE →
      SwitchStep r { r with
        procs := (r.procs.spawnThread p entry nstack).2
        made := Function.update r.made r.procs.threadCounter (some (entry, nstack)) }
  | noProcess (r : SwitchRun) (p : Int) (entry nstack : Nat) : r.procs.procTable.get p = none →
      SwitchStep r { r with procs := (r.procs.spawnThread p entry nstack).2 }
  | preempt (r : SwitchRun) (fuel oldStack : Nat) : r.procs.held ≠ [] →
      r.procs.schedulerPreempt fuel oldStack = some (d, s) →
      SwitchStep r ⟨s, r.made, s.ctask.thread :: r.selections, r.savedNow oldStack⟩

/-- A thread is entered at its entry the first time, and where it was left from then on. -/
structure SwitchSound (r : SwitchRun) : Prop where
  returns : r.procs.held ≠ [] →
    ∀ oldStack, ∃ fuel d, ∃ s : Procs, r.procs.schedulerPreempt fuel oldStack = some (d, s)
  first : r.procs.held ≠ [] → ∀ fuel oldStack d (s : Procs),
    r.procs.schedulerPreempt fuel oldStack = some (d, s) → s.ctask.thread ∉ r.selections →
    ∃ entry stackBlock, r.made s.ctask.thread = some (entry, stackBlock) ∧
      d = .bootstrap entry (stackBlock + THREAD_STACK_SIZE)
  later : r.procs.held ≠ [] → ∀ fuel oldStack d (s : Procs),
    r.procs.schedulerPreempt fuel oldStack = some (d, s) → s.ctask.thread ∈ r.selections →
    d = .resume (r.savedNow oldStack s.ctask.thread)

/-- What the table says of a scheduled thread; nothing of the stack of a running one. -/
structure Records (made : Int → Option (Nat × Nat)) (selections : List Int) (saved : Int → Nat)
    (run : List Int) (t : Int) (th : Thread) : Prop where
  made : made t = some (th.entry, th.stackBlock)
  fresh : t ∉ selections → th.state = .NEW ∧ th.stack = th.stackBlock + THREAD_STACK_SIZE
  active : t ∈ selections → th.state = .ACTIVE
  left : t ∈ selections → t ∉ run → th.stack = saved t

structure SwitchOk (r : SwitchRun) : Prop where
  ok : r.procs.Ok
  room : r.procs.held.length ≤ SCHEDULE_SIZE
  size : r.procs.threadTable.size = r.procs.held.length
  current : r.procs.running = r.selections.take 1
  selected : ∀ t ∈ r.selections, t ∈ r.procs.held
  records : ∀ t ∈ r.procs.held, ∃ th, r.procs.threadTable.get t = some th ∧
    Records r.made r.selections r.saved r.procs.running t th

variable {r : SwitchRun}

theorem SwitchOk.boot : SwitchOk .boot where
  ok := Procs.boot_ok
  room := Nat.zero_le _
  size := rfl
  current := rfl
  selected := fun _ ht => absurd ht List.not_mem_nil
  records := fun _ ht => absurd ht List.not_mem_nil

theorem Records.not_dead {made : Int → Option (Nat × Nat)} {saved : Int → Nat}
    (h : Records made selections saved run t th) : th.state ≠ .DEAD := by
  by_cases ht : t ∈ selections
  · rw [h.active ht]
    exact ThreadState.noConfusion
  · rw [(h.fresh ht).1]
    exact ThreadState.noConfusion

theorem SwitchOk.lt_counter (h : SwitchOk r) (ht : t ∈ r.procs.held) :
    0 ≤ t ∧ t < r.procs.threadCounter := by
  obtain ⟨th, hget, _⟩ := h.records t ht
  exact h.ok.threadKeys t (by rw [hget]; exact Option.some_ne_none th)

theorem SwitchOk.retired (h : SwitchOk r) : r.procs.retired = [] := by
  rw [Procs.retired, if_neg]
  rintro ⟨hc, hd⟩
  have hheld : r.procs.ctask.thread ∈ r.procs.held := by
    rw [Procs.held, Procs.running_of_ne hc]
    exact List.mem_cons_self
  obtain ⟨th, hget, hrec⟩ := h.records _ hheld
  rw [Procs.getState, hget] at hd
  exact hrec.not_dead hd

theorem SwitchOk.spawnThread (h : SwitchOk r) (hp : r.procs.procTable.get p ≠ none)
    (hroom : r.procs.held.length < SCHEDULE_SIZE) (entry nstack : Nat) :
    SwitchOk { r with
      procs := (r.procs.spawnThread p entry nstack).2
      made := Function.update r.made r.procs.threadCounter (some (entry, nstack)) } := by
  obtain ⟨proc, hproc⟩ := Option.ne_none_iff_exists'.1 hp
  have hsize : r.procs.threadTable.size < HASHTABLE_CAPACITY := h.size ▸ hroom
  have hget := Procs.get_enrol h.ok p proc entry nstack
  have hok := h.ok.enrol hp proc entry nstack
  have hheld := Procs.held_schedulerSchedule hok hroom r.procs.threadCounter 0
  rw [Procs.spawnThread_some hproc]
  refine ⟨hok.schedulerSchedule _ _, ?_, ?_, h.current, ?_, ?_⟩
  · rw [hheld, List.length_append]
    exact hroom
  · change (r.procs.enrol p proc entry nstack).threadTable.size = _
    rw [hheld, List.length_append, Procs.size_enrol h.ok, Nat.min_eq_left hsize, h.size]
    rfl
  · intro t ht
    rw [hheld]
    exact List.mem_append_left _ (h.selected t ht)
  · intro t ht
    rw [hheld, List.mem_append, List.mem_singleton] at ht
    change ∃ th, (r.procs.enrol p proc entry nstack).threadTable.get t = some th ∧ _
    rw [hget]
    rcases ht with ht | rfl
    · have hne : t ≠ r.procs.threadCounter := Int.ne_of_lt (h.lt_counter ht).2
      obtain ⟨th, hth, hrec⟩ := h.records t ht
      refine ⟨th, by rw [if_neg fun hc => hne hc.1, hth], ?_⟩
      exact { hrec with made := (Function.update_of_ne hne ..).trans hrec.made }
    · have hnew : r.procs.threadCounter ∉ r.selections :=
        fun hs => lt_irrefl _ (h.lt_counter (h.selected _ hs)).2
      refine ⟨_, if_pos ⟨rfl, hsize⟩, Function.update_self .., fun _ => ⟨rfl, rfl⟩, ?_, ?_⟩
      · exact fun hs => absurd hs hnew
      · exact fun hs => absurd hs hnew

theorem SwitchOk.saveStack (h : SwitchOk r) (oldStack : Nat) (ht : t ∈ r.procs.held) :
    ∃ th, (r.procs.saveStack oldStack).threadTable.get t = some th ∧
      Records r.made r.selections (r.savedNow oldStack) [] t th := by
  obtain ⟨th, hget, hrec⟩ := h.records t ht
  have hcur := h.current
  by_cases hsel : r.selections = []
  · have hidle : r.procs.ctask.thread = ID_INVALID := by
      by_contra hc
      rw [hsel, Procs.running_of_ne hc] at hcur
      cases hcur
    refine ⟨th, ?_, hrec.made, hrec.fresh, hrec.active, fun hs => ?_⟩
    · rw [Procs.saveStack, if_neg (not_not.2 hidle), hget]
    · rw [hsel] at hs
      cases hs
  · obtain ⟨current, rest, hsel⟩ := List.exists_cons_of_ne_nil hsel
    have hsaved : r.savedNow oldStack = Function.update r.saved current oldStack := by
      rw [SwitchRun.savedNow, hsel]
    have hc : r.procs.ctask.thread ≠ ID_INVALID := by
      intro hc
      rw [hsel, Procs.running_of_eq hc] at hcur
      cases hcur
    have hrun : current = r.procs.ctask.thread := by
      rw [hsel, Procs.running_of_ne hc] at hcur
      exact (List.cons.inj hcur).1.symm
    rw [Procs.saveStack, if_pos hc, Procs.setStack, Procs.get_modifyThread, hget, hsaved, hrun]
    split_ifs with he
    · have hmem : t ∈ r.selections := by
        rw [hsel, hrun, he]
        exact List.mem_cons_self
      refine ⟨_, rfl, hrec.made, fun hs => absurd hmem hs, hrec.active, fun _ _ => ?_⟩
      rw [he, Function.update_self]
    · refine ⟨th, rfl, hrec.made, hrec.fresh, hrec.active, fun hs _ => ?_⟩
      rw [Function.update_of_ne he]
      apply hrec.left hs
      rw [Procs.running_of_ne hc]
      exact fun hm => he (List.mem_singleton.1 hm)

/-- What an increment does in these runs. -/
structure Switched (r : SwitchRun) (oldStack : Nat) (s : Procs) : Prop where
  ok : s.Ok
  threadTable : s.threadTable = (r.procs.saveStack oldStack).threadTable
  held : r.procs.held.Perm s.held
  running : s.running = [s.ctask.thread]
  selected : s.ctask.thread ∈ r.procs.held

theorem SwitchOk.saved_queued (h : SwitchOk r) (oldStack : Nat) :
    r.procs.held.Perm (r.procs.saveStack oldStack).retireTask.queued := by
  have ok := (Procs.saveStack_spec h.ok oldStack).1
  have hheld := r.procs.saveStack_held oldStack
  have hkeep := Procs.held_retireTask ok (hheld ▸ h.room)
  rwa [hheld, Procs.saveStack_retired h.ok, h.retired] at hkeep

theorem SwitchOk.queued_ne_nil (h : SwitchOk r) (hne : r.procs.held ≠ []) (oldStack : Nat) :
    (r.procs.saveStack oldStack).retireTask.queued ≠ [] := by
  intro hn
  have hperm := h.saved_queued oldStack
  rw [hn] at hperm
  exact hne hperm.eq_nil

theorem SwitchOk.increment (h : SwitchOk r) (hne : r.procs.held ≠ [])
    (hi : (r.procs.saveStack oldStack).schedulerIncrement fuel = some s) :
    Switched r oldStack s := by
  have ok := (Procs.saveStack_spec h.ok oldStack).1
  have hinc := Procs.schedulerIncrement_spec ok (h.queued_ne_nil hne oldStack) hi
  have hperm := (h.saved_queued oldStack).trans hinc.chosen
  have hmem : s.ctask.thread ∈ r.procs.held := hperm.mem_iff.2 List.mem_cons_self
  have hrun : s.running = [s.ctask.thread] := by
    apply Procs.running_of_ne
    intro hc
    have hpos := (h.lt_counter hmem).1
    rw [hc] at hpos
    exact absurd hpos (by decide)
  refine ⟨hinc.ok, ?_, ?_, hrun, hmem⟩
  · rw [hinc.threadTable, Procs.retireTask_threadTable]
    rw [Procs.saveStack_retired h.ok, h.retired]
  · have hheld : s.held = s.ctask.thread :: s.queued := by
      rw [Procs.held, hrun]
      rfl
    rwa [hheld]

/-- The selected thread in the table at the moment it is entered. -/
theorem SwitchOk.chosen (h : SwitchOk r) (hs : Switched r oldStack s) :
    ∃ th, s.threadTable.get s.ctask.thread = some th ∧
      Records r.made r.selections (r.savedNow oldStack) [] s.ctask.thread th := by
  rw [hs.threadTable]
  exact h.saveStack oldStack hs.selected

theorem SwitchOk.first (h : SwitchOk r) (hne : r.procs.held ≠ [])
    (hp : r.procs.schedulerPreempt fuel oldStack = some (d, s))
    (hnew : s.ctask.thread ∉ r.selections) :
    ∃ entry stackBlock, r.made s.ctask.thread = some (entry, stackBlock) ∧
      d = .bootstrap entry (stackBlock + THREAD_STACK_SIZE) := by
  obtain ⟨s₁, hi, hd⟩ := Procs.schedulerPreempt_dispatch hp
  obtain ⟨th, hget, hrec⟩ := h.chosen (h.increment hne hi)
  rcases hd with ⟨_, rfl, rfl⟩ | ⟨hst, rfl, rfl⟩
  · obtain ⟨_, hstack⟩ := hrec.fresh hnew
    refine ⟨th.entry, th.stackBlock, hrec.made, ?_⟩
    rw [Procs.getEntry, Procs.getStack, hget, ← hstack]
  · rw [Procs.getState, hget] at hst
    exact absurd (hrec.fresh hnew).1 hst

theorem SwitchOk.later (h : SwitchOk r) (hne : r.procs.held ≠ [])
    (hp : r.procs.schedulerPreempt fuel oldStack = some (d, s))
    (hold : s.ctask.thread ∈ r.selections) : d = .resume (r.savedNow oldStack s.ctask.thread) := by
  obtain ⟨s₁, hi, hd⟩ := Procs.schedulerPreempt_dispatch hp
  obtain ⟨th, hget, hrec⟩ := h.chosen (h.increment hne hi)
  rcases hd with ⟨hst, rfl, rfl⟩ | ⟨_, rfl, rfl⟩
  · rw [Procs.getState, hget] at hst
    cases hst.symm.trans (hrec.active hold)
  · rw [Procs.getStack, hget]
    exact congrArg _ (hrec.left hold List.not_mem_nil)

/-- The state after the switch, whether or not the selected thread was new. -/
theorem SwitchOk.entered (h : SwitchOk r) (hs : Switched r oldStack s₁) {s : Procs} (ok : s.Ok)
    (hctask : s.ctask = s₁.ctask) (hqueue : s.schedule = s₁.schedule)
    (hsize : s.threadTable.size = s₁.threadTable.size)
    (hget : ∀ t, s.threadTable.get t = if t = s₁.ctask.thread then
      (s₁.threadTable.get t).map fun th => { th with state := .ACTIVE }
      else s₁.threadTable.get t) :
    SwitchOk ⟨s, r.made, s₁.ctask.thread :: r.selections, r.savedNow oldStack⟩ := by
  have hrun : s.running = [s₁.ctask.thread] := by
    rw [← hs.running, Procs.running, Procs.running, hctask]
  have hheld : s.held = s₁.held := by
    rw [Procs.held, hrun, Procs.queued, hqueue, Procs.held, hs.running]
    rfl
  have hlen := hs.held.length_eq
  have hmem (t : Int) : t ∈ s.held ↔ t ∈ r.procs.held := by rw [hheld, hs.held.mem_iff]
  refine ⟨ok, ?_, ?_, hrun, ?_, ?_⟩
  · change s.held.length ≤ _
    rw [hheld, ← hlen]
    exact h.room
  · change s.threadTable.size = s.held.length
    rw [hsize, hs.threadTable, hheld, ← hlen, ← h.size, Procs.saveStack]
    split_ifs
    · exact Hashtable.size_modify ..
    · rfl
  · exact fun t ht => (hmem t).2 (List.forall_mem_cons.2 ⟨hs.selected, h.selected⟩ t ht)
  · intro t ht
    obtain ⟨th, hth, hrec⟩ := h.saveStack oldStack ((hmem t).1 ht)
    rw [← hs.threadTable] at hth
    change ∃ th, s.threadTable.get t = some th ∧ _
    rw [hget, hth]
    split_ifs with he
    · refine ⟨_, rfl, hrec.made, fun hn => ?_, fun _ => rfl, fun _ hn => ?_⟩
      · exact absurd (he ▸ List.mem_cons_self) hn
      · change t ∉ s.running at hn
        rw [hrun, he] at hn
        exact absurd List.mem_cons_self hn
    · have hsel : t ∈ s₁.ctask.thread :: r.selections ↔ t ∈ r.selections := by
        rw [List.mem_cons, or_iff_right he]
      refine ⟨th, rfl, hrec.made, fun hn => ?_, fun hin => ?_, fun hin _ => ?_⟩
      · exact hrec.fresh (mt hsel.2 hn)
      · exact hrec.active (hsel.1 hin)
      · exact hrec.left (hsel.1 hin) List.not_mem_nil

theorem SwitchOk.preempt (h : SwitchOk r) (hne : r.procs.held ≠ [])
    (hp : r.procs.schedulerPreempt fuel oldStack = some (d, s)) :
    SwitchOk ⟨s, r.made, s.ctask.thread :: r.selections, r.savedNow oldStack⟩ := by
  obtain ⟨s₁, hi, hd⟩ := Procs.schedulerPreempt_dispatch hp
  have hs := h.increment hne hi
  rcases hd with ⟨_, _, rfl⟩ | ⟨hst, _, rfl⟩
  · exact h.entered hs (hs.ok.setState _ _) rfl rfl (Hashtable.size_modify ..)
      (Procs.get_modifyThread s₁ _ _)
  · refine h.entered hs hs.ok rfl rfl rfl fun t => ?_
    split_ifs with he
    · obtain ⟨th, hget, hrec⟩ := h.chosen hs
      rw [Procs.getState, hget] at hst
      have hactive : th.state = .ACTIVE := by
        by_cases hsel : s.ctask.thread ∈ r.selections
        · exact hrec.active hsel
        · exact absurd (hrec.fresh hsel).1 hst
      rw [he, hget, Option.map_some, ← hactive]
    · rfl

theorem SwitchOk.step (h : SwitchOk r) (ht : SwitchStep r r') : SwitchOk r' := by
  cases ht with
  | create _ leftover name dir => exact { h with ok := h.ok.create leftover name dir }
  | spawnThread _ p entry nstack hp hroom => exact h.spawnThread hp hroom entry nstack
  | noProcess _ p entry nstack hp =>
    rw [Procs.spawnThread_none hp]
    exact h
  | preempt _ fuel oldStack hne hp => exact h.preempt hne hp

theorem SwitchOk.sound (h : SwitchOk r) : SwitchSound r where
  returns := by
    intro hne oldStack
    obtain ⟨fuel, s₁, hi⟩ := Procs.schedulerIncrement_terminates
      (Procs.saveStack_spec h.ok oldStack).1 (h.queued_ne_nil hne oldStack)
    exact ⟨fuel, Procs.schedulerPreempt_terminates hi⟩
  first := fun hne _ _ _ _ hp => h.first hne hp
  later := fun hne _ _ _ _ hp => h.later hne hp

theorem SwitchOk.run (hr : Reachable (· = SwitchRun.boot) SwitchStep r) : SwitchOk r := by
  apply hr.invariant
  · rintro _ rfl
    exact .boot
  · exact fun _ _ h ht => h.step ht

/-- Every switch restores the stack of the selected thread. -/
theorem switches_restore (hr : Reachable (· = SwitchRun.boot) SwitchStep r) : SwitchSound r :=
  (SwitchOk.run hr).sound

theorem switches_restore_pair : SwitchSound
    ⟨.started, Function.update (Function.update (fun _ => none) 0 (some (7, 100))) 1
      (some (9, 5000)), [0], fun _ => 0⟩ := by
  have hproc : Reachable (· = SwitchRun.boot) SwitchStep
      ⟨(Procs.boot.create default [] 0).2, fun _ => none, [], fun _ => 0⟩ :=
    .step (.init rfl) (.create .boot default [] 0)
  have hfirst := hproc.step (.spawnThread _ 1 7 100 (Option.some_ne_none _) (by decide))
  have hpair := hfirst.step (.spawnThread _ 1 9 5000 (Option.some_ne_none _) (by decide))
  exact switches_restore (hpair.step (.preempt _ 1 5 (by decide) Procs.started_eq))

end Tupai
