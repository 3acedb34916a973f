import Tupai.Lib.Linkage
import Tupai.Lib.Transition
import Tupai.Scheduler

namespace Tupai
open Lib
set_option autoImplicit true

namespace Procs

def stackBlock (s : Procs) (t : Int) : Option Nat := (s.threadTable.get t).map Thread.stackBlock

/-- The tables alone: what holds of them does not depend on the queue. -/
def tables (s : Procs) : Procs := { s with schedule := .empty .idle }

/-- The heap blocks after `spawn_thread`: it allocates the stack of the new thread. -/
def spawnBlocks (s : Procs) (this : Int) (nstack : Nat) (live : List Nat) : List Nat :=
  match s.procTable.get this with
  | some _ => nstack :: live
  | none => live

end Procs

/-- A run with the live heap blocks that `create_thread` allocated, and the stack blocks of the
threads that were removed. -/
structure StackRun where
  procs : Procs
  live : List Nat
  leaked : List Nat

def StackRun.boot : StackRun := ⟨.boot, [], []⟩

/-- The runs below the table limits. `new` returns a block that is not live; no call frees one. -/
inductive StackStep : StackRun → StackRun → Prop where
  | create (r : StackRun) (leftover : Proc) (name : Chars) (dir : Int) :
      StackStep r { r with procs := (r.procs.create leftover name dir).2 }
  | spawnThread (r : StackRun) (p : Int) (entry nstack : Nat) : nstack ∉ r.live →
      r.procs.threadTable.size < HASHTABLE_CAPACITY →
      StackStep r { r with
        procs := (r.procs.spawnThread p entry nstack).2
        live := r.procs.spawnBlocks p nstack r.live }
  | kill (r : StackRun) (t : Int) : StackStep r { r with procs := (r.procs.kill t).2 }
  | preempt (r : StackRun) (fuel oldStack : Nat) :
      r.procs.schedulerPreempt fuel oldStack = some (d, s) →
      StackStep r { r with
        procs := s
        leaked := r.procs.retired.filterMap r.procs.stackBlock ++ r.leaked }

/-- The live blocks are the stacks of the threads in the table. -/
structure StacksExact (r : StackRun) : Prop where
  blocks : ∀ b, b ∈ r.live ↔ ∃ t th, r.procs.threadTable.get t = some th ∧ th.stackBlock = b
  bounded : r.live.length ≤ r.procs.threadTable.size

/-- The invariant of the runs: every live block is the stack of one thread, or leaked. -/
structure StackOk (r : StackRun) : Prop where
  tables : r.procs.tables.Ok
  link : Linkage r.procs.stackBlock fun b => b ∈ r.live ∧ b ∉ r.leaked
  leaked : ∀ b ∈ r.leaked, b ∈ r.live
  count : r.live.length = r.procs.threadTable.size + r.leaked.length

namespace Procs

variable {s : Procs}

theorem stackBlock_eq_some : s.stackBlock t = some b ↔
    ∃ th, s.threadTable.get t = some th ∧ th.stackBlock = b := Option.map_eq_some_iff

theorem stackBlock_modifyThread (s : Procs) (thread : Int) {f : Thread → Thread}
    (hf : ∀ th, (f th).stackBlock = th.stackBlock) (t : Int) :
    (s.modifyThread thread f).stackBlock t = s.stackBlock t := by
  rw [stackBlock, get_modifyThread, stackBlock]
  split_ifs
  · cases s.threadTable.get t with
    | none => rfl
    | some th => exact congrArg some (hf th)
  · rfl

theorem tables_deleteThread (s : Procs) (this thread : Int) :
    (s.deleteThread this thread).2.tables = (s.tables.deleteThread this thread).2 := by
  cases h : s.procTable.get this with
  | none =>
    have h' : s.tables.procTable.get this = none := h
    rw [deleteThread_none h, deleteThread_none h']
  | some proc =>
    have h' : s.tables.procTable.get this = some proc := h
    rw [deleteThread_some h, deleteThread_some h']
    rfl

theorem tables_saveStack (s : Procs) (oldStack : Nat) :
    (s.saveStack oldStack).tables = s.tables.saveStack oldStack := by
  rw [saveStack, saveStack]
  change tables (if s.ctask.thread ≠ ID_INVALID then _ else s) =
    if s.ctask.thread ≠ ID_INVALID then _ else s.tables
  split_ifs <;> rfl

/-- What a part of `scheduler_preempt` does to the thread table: the threads in `gone` leave it. -/
structure Drops (gone : List Int) (s s' : Procs) : Prop where
  tables : s'.tables.Ok
  stackBlock : ∀ t, s'.stackBlock t = if t ∈ gone then none else s.stackBlock t
  size : s'.threadTable.size + (gone.filterMap s.stackBlock).length = s.threadTable.size

theorem Drops.modifyThread (h : s.tables.Ok) (thread : Int) {f : Thread → Thread}
    (hf : ∀ th, (f th).proc = th.proc) (hb : ∀ th, (f th).stackBlock = th.stackBlock) :
    Drops [] s (s.modifyThread thread f) where
  tables := h.modifyThread thread hf
  stackBlock := stackBlock_modifyThread s thread hb
  size := s.threadTable.size_modify thread f

theorem Drops.refl (h : s.tables.Ok) : Drops [] s s := ⟨h, fun _ => rfl, rfl⟩

theorem Drops.congr (h : Drops gone s s') {s'' : Procs} (htables : s''.tables.Ok)
    (hthreads : s''.threadTable = s'.threadTable) : Drops gone s s'' where
  tables := htables
  stackBlock := by
    intro t
    rw [Procs.stackBlock, hthreads]
    exact h.stackBlock t
  size := hthreads ▸ h.size

theorem Drops.comp (h : Drops [] s s') (h' : Drops gone s' s'') : Drops gone s s'' := by
  have hsame : s'.stackBlock = s.stackBlock := funext h.stackBlock
  have hsize := h'.size
  rw [hsame, ← Nat.add_zero s'.threadTable.size] at hsize
  exact ⟨h'.tables, hsame ▸ h'.stackBlock, hsize.trans h.size⟩

theorem Drops.after (h : Drops gone s s') (h' : Drops [] s' s'') : Drops gone s s'' where
  tables := h'.tables
  stackBlock := fun t => (h'.stackBlock t).trans (h.stackBlock t)
  size := by
    have hsize := h'.size
    rw [List.filterMap_nil, List.length_nil, Nat.add_zero] at hsize
    rw [hsize, h.size]

theorem Drops.deleteThread (h : s.tables.Ok) (thread : Int) :
    Drops [thread] s (s.deleteThread (s.getProcess thread) thread).2 := by
  have hget := get_deleteThread h thread
  have hok := h.deleteThread (s.getProcess thread) thread
  change ∀ t, (s.tables.deleteThread (s.getProcess thread) thread).2.threadTable.get t = _ at hget
  rw [← tables_deleteThread] at hget hok
  refine ⟨hok, fun t => ?_, ?_⟩
  · rw [Procs.stackBlock]
    refine (congrArg _ (hget t)).trans ?_
    simp only [List.mem_singleton]
    split_ifs <;> rfl
  · cases hth : s.threadTable.get thread with
    | none =>
      have hnone : s.stackBlock thread = none := by rw [Procs.stackBlock, hth]; rfl
      have hsame : (s.deleteThread (s.getProcess thread) thread).2.threadTable = s.threadTable := by
        cases hp : s.procTable.get (s.getProcess thread) with
        | none => rw [deleteThread_none hp]
        | some proc =>
          rw [deleteThread_some hp]
          exact congrArg Prod.snd (Hashtable.remove_absent hth)
      rw [hsame, List.filterMap_cons_none hnone]
      rfl
    | some th =>
      have hsome : s.stackBlock thread = some th.stackBlock := by rw [Procs.stackBlock, hth]; rfl
      have hproc : s.procTable.get (s.getProcess thread) ≠ none := by
        rw [getProcess, hth]
        exact h.parent thread th hth
      obtain ⟨proc, hproc⟩ := Option.ne_none_iff_exists'.1 hproc
      rw [deleteThread_some hproc, List.filterMap_cons_some hsome]
      refine (h.threadOk.remove_spec fun hn => ?_).2.1
      cases hth.symm.trans hn

theorem Drops.retireTask (h : s.tables.Ok) : Drops s.retired s s.retireTask := by
  by_cases hc : s.ctask.thread = ID_INVALID
  · obtain ⟨he, hr⟩ := retireTask_idle hc
    rw [he, hr]
    exact .refl h
  · by_cases hd : s.getState s.ctask.thread = .DEAD
    · obtain ⟨he, hr⟩ := retireTask_dead hc hd
      rw [he, hr]
      exact .deleteThread h s.ctask.thread
    · obtain ⟨he, hr⟩ := retireTask_alive hc hd
      rw [he, hr]
      exact (Drops.refl h).congr { h with } rfl

theorem Drops.schedulerIncrement (h : s.tables.Ok) (hi : s.schedulerIncrement fuel = some s') :
    Drops s.retired s s' := by
  have hr := Drops.retireTask h
  rw [Procs.schedulerIncrement] at hi
  cases hsel : selectTask fuel s.retireTask.schedule with
  | none => rw [hsel] at hi; cases hi
  | some r =>
    rw [hsel] at hi
    cases hi
    exact hr.congr { hr.tables with } rfl

theorem Drops.saveStack (h : s.tables.Ok) (oldStack : Nat) :
    Drops [] s (s.saveStack oldStack) := by
  rw [Procs.saveStack]
  split_ifs
  · exact .modifyThread h _ (fun _ => rfl) fun _ => rfl
  · exact .refl h

/-- `scheduler_preempt` removes the current thread if it is dead, and no other. -/
theorem Drops.schedulerPreempt (h : s.tables.Ok)
    (hp : s.schedulerPreempt fuel oldStack = some (d, s')) : Drops s.retired s s' := by
  obtain ⟨s₁, hi, hs⟩ := schedulerPreempt_some hp
  have hsave := Drops.saveStack h oldStack
  have hretired : (s.saveStack oldStack).retired = s.retired := by
    change (s.saveStack oldStack).tables.retired = s.tables.retired
    rw [tables_saveStack, saveStack_retired h]
  have hinc := Drops.schedulerIncrement hsave.tables hi
  rw [hretired] at hinc
  have hdrop := hsave.comp hinc
  rcases hs with rfl | ⟨_, rfl⟩
  · exact hdrop
  · exact hdrop.after (.modifyThread hdrop.tables _ (fun _ => rfl) fun _ => rfl)

end Procs

variable {r : StackRun}

theorem StackOk.boot : StackOk .boot where
  tables := Procs.boot_ok
  link := .empty (fun t => congrArg _ (Hashtable.zeroed_unused.get t)) fun _ hb => by cases hb.1
  leaked := fun _ hb => absurd hb List.not_mem_nil
  count := rfl

theorem StackOk.spawnThread (h : StackOk r) (hp : r.procs.procTable.get p = some proc)
    (hnew : nstack ∉ r.live) (hsize : r.procs.threadTable.size < HASHTABLE_CAPACITY)
    (entry : Nat) :
    StackOk { r with
      procs := (r.procs.spawnThread p entry nstack).2
      live := nstack :: r.live } := by
  have hp' : r.procs.tables.procTable.get p ≠ none := by
    change r.procs.procTable.get p ≠ none
    rw [hp]
    exact Option.some_ne_none proc
  have hok := h.tables.enrol hp' proc entry nstack
  have hget := Procs.get_enrol h.tables p proc entry nstack
  have hfresh := h.tables.freshThread
  rw [Procs.spawnThread_some hp]
  have hroom : r.procs.tables.threadTable.size < HASHTABLE_CAPACITY := hsize
  simp only [and_iff_left hroom] at hget
  refine ⟨{ hok with }, ?_, ?_, ?_⟩
  · refine h.link.insert r.procs.threadCounter (congrArg _ hfresh) (fun hb => hnew hb.1) ?_ ?_
    · intro t
      refine (congrArg (Option.map _) (hget t)).trans ?_
      rw [apply_ite (Option.map _)]
      rfl
    · intro b
      have hne : b = nstack → b ∉ r.leaked := fun he hb => hnew (he ▸ h.leaked b hb)
      rw [List.mem_cons, or_and_right, and_iff_left_of_imp hne]
  · exact fun b hb => List.mem_cons_of_mem _ (h.leaked b hb)
  · have hsize' := Procs.size_enrol h.tables p proc entry nstack
    rw [Nat.min_eq_left hroom] at hsize'
    change r.live.length + 1 =
      (r.procs.tables.enrol p proc entry nstack).threadTable.size + r.leaked.length
    rw [hsize', h.count]
    exact Nat.add_right_comm ..

theorem StackOk.preempt (h : StackOk r)
    (hp : r.procs.schedulerPreempt fuel oldStack = some (d, s)) :
    StackOk { r with
      procs := s
      leaked := r.procs.retired.filterMap r.procs.stackBlock ++ r.leaked } := by
  have hdrop := Procs.Drops.schedulerPreempt h.tables hp
  have hcount := h.count
  rw [← hdrop.size, Nat.add_assoc, ← List.length_append] at hcount
  have hretired : r.procs.retired = [] ∨ ∃ t, r.procs.retired = [t] := by
    rw [Procs.retired]
    split_ifs
    · exact .inr ⟨_, rfl⟩
    · exact .inl rfl
  rcases hretired with hr | ⟨t, hr⟩
  · rw [hr] at hdrop hcount ⊢
    exact ⟨hdrop.tables, h.link.congr hdrop.stackBlock fun _ => .rfl, h.leaked, hcount⟩
  · rw [hr] at hdrop hcount ⊢
    cases hb : r.procs.stackBlock t with
    | none =>
      rw [List.filterMap_cons_none hb] at hcount ⊢
      refine ⟨hdrop.tables, h.link.congr (fun t' => ?_) fun _ => .rfl, h.leaked, hcount⟩
      change s.stackBlock t' = _
      rw [hdrop.stackBlock]
      simp only [List.mem_singleton]
      split_ifs with he
      · rw [he, hb]
      · rfl
    | some b =>
      rw [List.filterMap_cons_some hb] at hcount ⊢
      refine ⟨hdrop.tables, h.link.erase hb (fun t' => ?_) fun b' => ?_, ?_, hcount⟩
      · change s.stackBlock t' = _
        rw [hdrop.stackBlock]
        simp only [List.mem_singleton]
      · change b' ∈ r.live ∧ b' ∉ b :: r.leaked ↔ _
        rw [List.mem_cons, not_or, and_left_comm]
      · exact List.forall_mem_cons.2 ⟨(h.link.held t b hb).1, h.leaked⟩

theorem StackOk.step (h : StackOk r) (ht : StackStep r r') : StackOk r' := by
  cases ht with
  | create _ leftover name dir =>
    exact ⟨h.tables.create leftover name dir, h.link, h.leaked, h.count⟩
  | spawnThread _ p entry nstack hnew hsize =>
    cases hp : r.procs.procTable.get p with
    | none =>
      rw [Procs.spawnThread_none hp, Procs.spawnBlocks, hp]
      exact h
    | some proc =>
      rw [Procs.spawnBlocks, hp]
      exact h.spawnThread hp hnew hsize entry
  | kill _ t =>
    have hdrop := Procs.Drops.modifyThread h.tables t (f := fun th => { th with state := .DEAD })
      (fun _ => rfl) fun _ => rfl
    have hsize : _ = r.procs.threadTable.size := hdrop.size
    exact ⟨hdrop.tables, h.link.congr hdrop.stackBlock fun _ => .rfl, h.leaked,
      h.count.trans (congrArg (· + r.leaked.length) hsize.symm)⟩
  | preempt _ fuel oldStack hp => exact h.preempt hp

theorem StackOk.exact_iff (h : StackOk r) : StacksExact r ↔ r.leaked = [] := by
  constructor
  · intro hexact
    apply List.eq_nil_iff_forall_not_mem.2
    intro b hb
    obtain ⟨t, ht⟩ := (hexact.blocks b).1 (h.leaked b hb)
    exact (h.link.held t b (Procs.stackBlock_eq_some.2 ht)).2 hb
  · intro hnone
    refine ⟨fun b => ⟨fun hb => ?_, fun ⟨t, ht⟩ => ?_⟩, ?_⟩
    · obtain ⟨t, ht⟩ := h.link.onto b ⟨hb, by rw [hnone]; exact List.not_mem_nil⟩
      exact ⟨t, Procs.stackBlock_eq_some.1 ht⟩
    · exact (h.link.held t b (Procs.stackBlock_eq_some.2 ht)).1
    · rw [h.count, hnone]
      exact Nat.le_refl _

theorem StackOk.run (hr : Reachable (· = StackRun.boot) StackStep r) : StackOk r := by
  apply hr.invariant
  · rintro _ rfl
    exact .boot
  · exact fun _ _ h ht => h.step ht

/-- The stacks are exact as long as no preemption has removed a thread: its stack is never freed. -/
theorem stacks_exact_iff (hr : Reachable (· = StackRun.boot) StackStep r) :
    StacksExact r ↔ r.leaked = [] := (StackOk.run hr).exact_iff

theorem started_stacks : Reachable (· = StackRun.boot) StackStep ⟨.started, [5000, 100], []⟩ := by
  have hproc : Reachable (· = StackRun.boot) StackStep
      ⟨(Procs.boot.create default [] 0).2, [], []⟩ :=
    .step (.init rfl) (.create .boot default [] 0)
  have hfirst := hproc.step (.spawnThread _ 1 7 100 List.not_mem_nil (by decide))
  have hpair := hfirst.step (.spawnThread _ 1 9 5000 (by decide) (by decide))
  exact hpair.step (.preempt _ 1 5 Procs.started_eq)

theorem stacks_exact_started : StacksExact ⟨.started, [5000, 100], []⟩ :=
  (stacks_exact_iff started_stacks).2 rfl

/-- The running thread is killed and the next preemption removes it: its block stays live. -/
theorem stacks_not_exact : ∃ r : StackRun, Reachable (· = StackRun.boot) StackStep r ∧
    r.procs.threadTable.get 0 = none ∧ 100 ∈ r.live ∧ r.procs.threadTable.size = 1 ∧
    r.live.length = 2 ∧ ¬ StacksExact r := by
  have hkill := started_stacks.step (.kill _ 0)
  have hrun : ((Procs.started.kill 0).2.schedulerPreempt 1 0).any fun r =>
      (r.2.threadTable.get 0).isNone ∧ r.2.threadTable.size = 1 := by decide +kernel
  cases hp : (Procs.started.kill 0).2.schedulerPreempt 1 0 with
  | none => rw [hp] at hrun; cases hrun
  | some r =>
    rw [hp, Option.any_some, decide_eq_true_eq, Option.isNone_iff_eq_none] at hrun
    have hr := hkill.step (.preempt _ 1 0 hp)
    refine ⟨_, hr, hrun.1, List.mem_cons_of_mem _ List.mem_cons_self, hrun.2, rfl, fun hexact => ?_⟩
    have hbounded := hexact.bounded
    change 2 ≤ r.2.threadTable.size at hbounded
    rw [hrun.2] at hbounded
    exact absurd hbounded (by decide)

end Tupai
