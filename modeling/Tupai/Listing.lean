import Tupai.Lib.Linkage
import Tupai.Stacks
import Tupai.Spawn

namespace Tupai
open Lib
set_option autoImplicit true

namespace Procs

/-- The process of a thread in the table, with the local id it has there. -/
def place (s : Procs) (t : Int) : Option (Int × Int) :=
  (s.threadTable.get t).map fun th => (th.proc, th.lid)

/-- The threads that the processes list, by process and local id. -/
def lookup (s : Procs) (pl : Int × Int) : Option Int := s.listed pl.1 pl.2

/-- The tables of the processes and the thread table list the same threads. -/
structure TablesAgree (s : Procs) : Prop where
  agree : ∀ p l t, s.listed p l = some t ↔
    ∃ th, s.threadTable.get t = some th ∧ th.proc = p ∧ th.lid = l
  unique : ∀ t t' th th', s.threadTable.get t = some th → s.threadTable.get t' = some th' →
    th.proc = th'.proc → th.lid = th'.lid → t = t'
  owner : ∀ t, s.threadTable.get t ≠ none →
    ∃! p, s.procTable.get p ≠ none ∧ ∃ l, s.listed p l = some t

/-- The runs below the table limits. A new process has empty tables. -/
inductive ListingStep : Procs → Procs → Prop where
  | create (s : Procs) (leftover : Proc) (name : Chars) (dir : Int) :
      (nproc leftover (s.procCounter + 1) name dir).threads.Unused →
      (nproc leftover (s.procCounter + 1) name dir).fds.Unused →
      ListingStep s (s.create leftover name dir).2
  | spawnThread (s : Procs) (p : Int) (entry nstack : Nat) :
      s.threadTable.size < HASHTABLE_CAPACITY →
      (∀ proc, s.procTable.get p = some proc → proc.threads.size < HASHTABLE_CAPACITY) →
      ListingStep s (s.spawnThread p entry nstack).2
  | kill (s : Procs) (t : Int) : ListingStep s (s.kill t).2
  | increment (s : Procs) (fuel : Nat) : s.schedulerIncrement fuel = some s' → ListingStep s s'

structure ListOk (s : Procs) : Prop where
  tables : s.tables.Ok
  lids : ∀ p proc, s.procTable.get p = some proc → proc.threads.Numbered proc.threadCounter
  link : Converse s.place s.lookup

variable {s : Procs}

theorem place_eq_some : s.place t = some (p, l) ↔
    ∃ th, s.threadTable.get t = some th ∧ th.proc = p ∧ th.lid = l := by
  rw [place, Option.map_eq_some_iff]
  simp only [Prod.mk.injEq]

theorem place_modifyThread (s : Procs) (thread : Int) {f : Thread → Thread}
    (hp : ∀ th, (f th).proc = th.proc) (hl : ∀ th, (f th).lid = th.lid) (t : Int) :
    (s.modifyThread thread f).place t = s.place t := by
  rw [place, get_modifyThread, place]
  split_ifs
  · cases s.threadTable.get t with
    | none => rfl
    | some th => exact congrArg some (Prod.ext (hp th) (hl th))
  · rfl

theorem ListOk.boot : boot.ListOk where
  tables := boot_ok
  lids := by
    intro p proc hp
    have hnone : Procs.boot.procTable.get p = none := Hashtable.zeroed_unused.get p
    rw [hnone] at hp
    cases hp
  link := by
    apply Converse.empty
    · exact fun t => congrArg _ (Hashtable.zeroed_unused.get t)
    · intro pl
      have hnone : Procs.boot.procTable.get pl.1 = none := Hashtable.zeroed_unused.get pl.1
      rw [lookup, listed, hnone]
      rfl

theorem ListOk.create (h : s.ListOk) (leftover : Proc) (name : Chars) (dir : Int)
    (hu : (nproc leftover (s.procCounter + 1) name dir).threads.Unused) :
    (s.create leftover name dir).2.ListOk := by
  have hget := get_create h.tables leftover name dir
  have hfresh := h.tables.freshProc
  refine ⟨h.tables.create leftover name dir, ?_, ?_⟩
  · intro p proc hp
    have hp' := (hget p).symm.trans hp
    split_ifs at hp'
    · cases hp'
      exact ⟨hu.ok, le_refl 0, fun k hk => absurd (hu.get k) hk⟩
    · exact h.lids p proc hp'
  · apply h.link.congr (fun _ => rfl)
    rintro ⟨p, l⟩
    rw [lookup, lookup, listed, listed]
    refine (congrArg (Option.bind · _) (hget p)).trans ?_
    split_ifs with hc
    · have hnone : s.procTable.get p = none := hc.1 ▸ hfresh
      rw [hnone]
      exact hu.get l
    · rfl

theorem ListOk.modifyThread (h : s.ListOk) (thread : Int) {f : Thread → Thread}
    (hp : ∀ th, (f th).proc = th.proc) (hl : ∀ th, (f th).lid = th.lid) :
    (s.modifyThread thread f).ListOk where
  tables := h.tables.modifyThread thread hp
  lids := h.lids
  link := h.link.congr (place_modifyThread s thread hp hl) fun _ => rfl

theorem procTable_enrol (hp : s.procTable.get p = some proc) (entry nstack : Nat) (q : Int) :
    (s.enrol p proc entry nstack).procTable.get q = if q = p then some { proc with
      threadCounter := proc.threadCounter + 1
      threads := (proc.threads.add proc.threadCounter s.threadCounter).2 }
    else s.procTable.get q := by
  rw [Procs.enrol, get_modifyProc]
  change (if q = p then ((s.modifyProc p _).procTable.get q).map _
    else (s.modifyProc p _).procTable.get q) = _
  rw [get_modifyProc]
  split_ifs with hq
  · rw [hq, hp]
    rfl
  · rfl

/-- The new thread gets a fresh id in the thread table and a fresh local id in its process. -/
theorem ListOk.enrol (h : s.ListOk) (hp : s.procTable.get p = some proc)
    (hsize : s.threadTable.size < HASHTABLE_CAPACITY)
    (hthreads : proc.threads.size < HASHTABLE_CAPACITY) (entry nstack : Nat) :
    (s.enrol p proc entry nstack).ListOk := by
  have hnum := h.lids p proc hp
  have hroom : s.tables.threadTable.size < HASHTABLE_CAPACITY := hsize
  have hget := get_enrol h.tables p proc entry nstack
  simp only [and_iff_left hroom] at hget
  have hproc := procTable_enrol hp entry nstack
  have hne : s.tables.procTable.get p ≠ none := fun hn => by cases hp.symm.trans hn
  refine ⟨h.tables.enrol hne proc entry nstack, ?_, ?_⟩
  · intro q proc' hq
    rw [hproc] at hq
    split_ifs at hq
    · cases hq
      exact hnum.add s.threadCounter
    · exact h.lids q proc' hq
  · refine h.link.insert s.threadCounter (p, proc.threadCounter) ?_ ?_ ?_ ?_
    · exact congrArg (Option.map _) h.tables.freshThread
    · rw [lookup, listed, hp]
      exact hnum.fresh
    · intro t
      refine (congrArg (Option.map _) (hget t)).trans ?_
      rw [apply_ite (Option.map _)]
      rfl
    · rintro ⟨q, l⟩
      rw [lookup, listed, hproc]
      split_ifs with hq hl hl
      · cases hl
        exact (hnum.get_add _).trans (if_pos hthreads)
      · subst hq
        rw [lookup, listed, hp]
        refine (hnum.ok.get_add hnum.fresh _ l).trans (if_neg fun hc => hl ?_)
        rw [hc.1]
      · cases hl
        exact absurd rfl hq
      · rfl

theorem ListOk.spawnThread (h : s.ListOk) (hsize : s.threadTable.size < HASHTABLE_CAPACITY)
    (hthreads : ∀ proc, s.procTable.get p = some proc → proc.threads.size < HASHTABLE_CAPACITY)
    (entry nstack : Nat) : (s.spawnThread p entry nstack).2.ListOk := by
  cases hp : s.procTable.get p with
  | none =>
    rw [spawnThread_none hp]
    exact h
  | some proc =>
    rw [spawnThread_some hp]
    have h' := h.enrol hp hsize (hthreads proc hp) entry nstack
    exact ⟨{ h'.tables with }, h'.lids, h'.link⟩

theorem ListOk.deleteThread (h : s.ListOk) (thread : Int) :
    (s.deleteThread (s.getProcess thread) thread).2.ListOk := by
  have hget := get_deleteThread h.tables thread
  have hok := h.tables.deleteThread (s.getProcess thread) thread
  change ∀ t, (s.tables.deleteThread (s.getProcess thread) thread).2.threadTable.get t = _ at hget
  rw [← tables_deleteThread] at hget hok
  cases hth : s.threadTable.get thread with
  | none =>
    have hprocess : s.getProcess thread = ID_INVALID := by rw [getProcess, hth]
    have hnone : s.procTable.get ID_INVALID = none := by
      by_contra hn
      exact absurd (h.tables.procKeys _ hn).1 (by decide)
    rw [hprocess, deleteThread_none hnone]
    exact h
  | some th =>
    have hprocess : s.getProcess thread = th.proc := by rw [getProcess, hth]
    have hlid : s.getLid thread = th.lid := by rw [getLid, hth]
    obtain ⟨proc, hp⟩ := Option.ne_none_iff_exists'.1 (h.tables.parent thread th hth)
    have hp' : s.procTable.get th.proc = some proc := hp
    have hplace : s.place thread = some (th.proc, th.lid) := place_eq_some.2 ⟨th, hth, rfl, rfl⟩
    rw [hprocess, deleteThread_some hp', hlid] at hget hok ⊢
    refine ⟨hok, ?_, h.link.erase hplace ?_ ?_⟩
    · intro q proc' hq
      replace hq := (get_modifyProc s th.proc _ q).symm.trans hq
      split_ifs at hq
      · obtain ⟨proc₀, hq₀, rfl⟩ := Option.map_eq_some_iff.1 hq
        exact (h.lids q proc₀ hq₀).remove th.lid
      · exact h.lids q proc' hq
    · intro t
      refine (congrArg (Option.map _) (hget t)).trans ?_
      rw [apply_ite (Option.map _)]
      rfl
    · rintro ⟨q, l⟩
      rw [lookup, listed]
      refine (congrArg (Option.bind · _) (get_modifyProc s th.proc _ q)).trans ?_
      rw [lookup, listed]
      by_cases hq : q = th.proc
      · rw [if_pos hq, hq, hp']
        refine ((h.lids _ proc hp').ok.get_remove th.lid l).trans ?_
        simp only [Prod.mk.injEq, true_and]
        rfl
      · rw [if_neg hq, if_neg fun he => hq (congrArg Prod.fst he)]

theorem ListOk.retireTask (h : s.ListOk) : s.retireTask.ListOk := by
  by_cases hc : s.ctask.thread = ID_INVALID
  · rw [(retireTask_idle hc).1]
    exact h
  · by_cases hd : s.getState s.ctask.thread = .DEAD
    · rw [(retireTask_dead hc hd).1]
      exact h.deleteThread s.ctask.thread
    · rw [(retireTask_alive hc hd).1]
      exact ⟨{ h.tables with }, h.lids, h.link⟩

theorem ListOk.increment (h : s.ListOk) (hi : s.schedulerIncrement fuel = some s') :
    s'.ListOk := by
  have hr := h.retireTask
  rw [schedulerIncrement] at hi
  cases hsel : selectTask fuel s.retireTask.schedule with
  | none => rw [hsel] at hi; cases hi
  | some r =>
    rw [hsel] at hi
    cases hi
    exact ⟨{ hr.tables with }, hr.lids, hr.link⟩

theorem ListOk.step (h : s.ListOk) (ht : ListingStep s s') : s'.ListOk := by
  cases ht with
  | create _ leftover name dir hu _ => exact h.create leftover name dir hu
  | spawnThread _ p entry nstack hsize hthreads => exact h.spawnThread hsize hthreads entry nstack
  | kill _ t => exact h.modifyThread t (fun _ => rfl) fun _ => rfl
  | increment _ fuel hi => exact h.increment hi

theorem ListOk.agree (h : s.ListOk) : s.TablesAgree := by
  have hagree (p l t : Int) : s.listed p l = some t ↔
      ∃ th, s.threadTable.get t = some th ∧ th.proc = p ∧ th.lid = l := by
    rw [← place_eq_some]
    exact (h.link t (p, l)).symm
  refine ⟨hagree, ?_, ?_⟩
  · intro t t' th th' ht ht' hp hl
    apply h.link.inj (b := (th.proc, th.lid))
    · exact place_eq_some.2 ⟨th, ht, rfl, rfl⟩
    · exact place_eq_some.2 ⟨th', ht', hp.symm, hl.symm⟩
  · intro t ht
    obtain ⟨th, hth⟩ := Option.ne_none_iff_exists'.1 ht
    refine ⟨th.proc, ⟨h.tables.parent t th hth, th.lid, (hagree _ _ t).2 ⟨th, hth, rfl, rfl⟩⟩, ?_⟩
    rintro p ⟨_, l, hl⟩
    obtain ⟨th', hth', hp, _⟩ := (hagree p l t).1 hl
    cases hth.symm.trans hth'
    exact hp.symm

/-- In every run the two levels of tables agree. -/
theorem thread_tables_agree (hr : Reachable (· = boot) ListingStep s) : s.TablesAgree := by
  apply ListOk.agree
  apply hr.invariant
  · rintro _ rfl
    exact .boot
  · exact fun _ _ h ht => h.step ht

def twoThreads : Procs := (twoProcs.spawnThread 2 9 5000).2

theorem twoThreads_listing : Reachable (· = boot) ListingStep twoThreads := by
  have hu : (nproc default 1 [] 0).threads.Unused := Hashtable.zeroed_unused
  have hu' : (nproc default 1 [] 0).fds.Unused := Hashtable.zeroed_unused
  have hone : Reachable (· = boot) ListingStep (boot.create default [] 0).2 :=
    .step (.init rfl) (.create boot default [] 0 hu hu')
  have htwo := hone.step (.create _ default [] 0 hu hu')
  have hfirst := htwo.step (.spawnThread _ 1 7 100 (by decide) fun proc hp => by cases hp; decide)
  exact hfirst.step (.spawnThread _ 2 9 5000 (by decide) fun proc hp => by cases hp; decide)

theorem thread_tables_agree_twoThreads :
    (((((twoThreads.schedulerIncrement 1).getD boot).kill 0).2.schedulerIncrement 1).getD
      boot).TablesAgree := by
  have hi : (twoThreads.schedulerIncrement 1).isSome := by decide +kernel
  have hi' : ((((twoThreads.schedulerIncrement 1).getD boot).kill 0).2.schedulerIncrement 1).isSome
    := by decide +kernel
  have hrun := (twoThreads_listing.step (.increment _ 1 (Option.some_get hi).symm)).step (.kill _ 0)
  rw [← Option.get_eq_getD (h := hi)] at hi' ⊢
  rw [← Option.get_eq_getD (h := hi')]
  exact thread_tables_agree (hrun.step (.increment _ 1 (Option.some_get hi').symm))

end Procs
end Tupai
