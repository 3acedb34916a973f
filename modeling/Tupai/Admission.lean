import Mathlib.Data.List.Perm.Subperm
import Tupai.Dispatch
import Tupai.Spawn
import Tupai.Stacks

namespace Tupai
open Lib
set_option autoImplicit true

namespace Procs

/-- The new thread is in both tables and in the queue, and no other thread was dropped from it. -/
def Admitted (s s' : Procs) (p : Int) : Prop :=
  ∃ t, NewThread s s' t ∧ s'.listed p (s'.getLid t) = some t ∧ t ∈ s'.queued ∧
    ∀ x ∈ s.held, x ∈ s'.held

/-- The call says that it did nothing, and it did nothing. -/
structure TurnedAway (s s' : Procs) (p result : Int) (live live' : List Nat) : Prop where
  result : result = ID_INVALID
  threadTable : s'.threadTable = s.threadTable
  threads : (s'.procTable.get p).map Proc.threads = (s.procTable.get p).map Proc.threads
  schedule : s'.schedule = s.schedule
  heap : live' = live

/-- `spawn_thread` does all that it has to do, or nothing. -/
def AllOrNothing (s : Procs) (p : Int) (entry nstack : Nat) (live : List Nat) : Prop :=
  Admitted s (s.spawnThread p entry nstack).2 p ∨
    TurnedAway s (s.spawnThread p entry nstack).2 p (s.spawnThread p entry nstack).1 live
      (s.spawnBlocks p nstack live)

/-- No preemption takes a task from an empty queue. -/
def Offers (s : Procs) : ThreadCall → Prop
  | .schedulerPreempt .. =>
    s.queued ≠ [] ∨ s.ctask.thread ≠ ID_INVALID ∧ s.getState s.ctask.thread ≠ .DEAD
  | _ => True

def OfferStep (s s' : Procs) : Prop := ∃ c, s.Offers c ∧ s.call c = some s'

/-- The invariant of these runs: no thread is scheduled twice. -/
structure QueueSound (s : Procs) : Prop where
  ok : s.Ok
  nodup : s.held.Nodup
  created : ∀ t ∈ s.held, 0 ≤ t ∧ t < s.threadCounter

variable {s : Procs}

theorem QueueSound.boot : boot.QueueSound :=
  ⟨boot_ok, List.nodup_nil, fun _ ht => absurd ht List.not_mem_nil⟩

theorem push_sublist (q : Queue Task) : List.Sublist
    ((if q.length < SCHEDULE_SIZE then q.toList SCHEDULE_SIZE
      else (q.toList SCHEDULE_SIZE).tail).map Task.thread)
    ((q.toList SCHEDULE_SIZE).map Task.thread) := by
  split_ifs
  · exact .refl _
  · exact (List.tail_sublist _).map _

theorem queued_schedulerSchedule (ok : s.Ok) (thread priority : Int) :
    ∃ kept, List.Sublist kept s.queued ∧ (s.schedule.length < SCHEDULE_SIZE → kept = s.queued) ∧
      (¬ s.schedule.length < SCHEDULE_SIZE → kept = s.queued.tail) ∧
      (s.schedulerSchedule thread priority).queued = kept ++ [thread] := by
  refine ⟨_, push_sublist s.schedule, fun h => ?_, fun h => ?_, ?_⟩
  · rw [if_pos h]
    rfl
  · rw [if_neg h, List.map_tail]
    rfl
  · rw [queued, schedulerSchedule, (ok.queueOk.push _).2, List.map_append]
    rfl

theorem QueueSound.spawnThread (h : s.QueueSound) (this : Int) (entry nstack : Nat) :
    (s.spawnThread this entry nstack).2.QueueSound := by
  cases hp : s.procTable.get this with
  | none =>
    rw [spawnThread_none hp]
    exact h
  | some proc =>
    have hok := h.ok.enrol (by rw [hp]; exact Option.some_ne_none proc) proc entry nstack
    obtain ⟨kept, hsub, _, _, hlist⟩ := queued_schedulerSchedule hok s.threadCounter 0
    rw [spawnThread_some hp]
    have hheld : ((s.enrol this proc entry nstack).schedulerSchedule s.threadCounter 0).held =
        (s.running ++ kept) ++ [s.threadCounter] := by
      rw [held, hlist, ← List.append_assoc]
      rfl
    have hkept : List.Sublist (s.running ++ kept) s.held := hsub.append_left s.running
    refine ⟨hok.schedulerSchedule _ _, ?_, fun t ht => ?_⟩
    · rw [hheld, List.nodup_append_comm, List.singleton_append]
      refine (hkept.nodup h.nodup).cons fun ht => ?_
      exact lt_irrefl _ (h.created _ (hkept.subset ht)).2
    · change 0 ≤ t ∧ t < s.threadCounter + 1
      rw [hheld, List.mem_append, List.mem_singleton] at ht
      rcases ht with ht | rfl
      · have hlt := h.created t (hkept.subset ht)
        omega
      · have hpos := h.ok.threadPos
        omega

/-- What is left to choose from are held threads, each once. -/
theorem QueueSound.offered (h : s.QueueSound) : s.retireTask.queued.Subperm s.held := by
  by_cases hc : s.ctask.thread = ID_INVALID
  · rw [(retireTask_idle hc).1]
    exact (List.sublist_append_right s.running s.queued).subperm
  · by_cases hd : s.getState s.ctask.thread = .DEAD
    · rw [(retireTask_dead hc hd).1, queued, schedule_deleteThread]
      exact (List.sublist_append_right s.running s.queued).subperm
    · rw [(retireTask_alive hc hd).1, queued, (h.ok.queueOk.push _).2, List.map_append, held,
        running_of_ne hc]
      exact ((push_sublist s.schedule).append_right _).subperm.trans
        (List.perm_append_comm).subperm

theorem QueueSound.incremented (h : s.QueueSound) (hi : Incremented s s') : s'.QueueSound := by
  obtain ⟨sub, hperm, hsub⟩ := h.offered
  have hchosen : (s'.ctask.thread :: s'.queued).Perm sub := hi.chosen.symm.trans hperm.symm
  have hcreated : ∀ t ∈ s'.ctask.thread :: s'.queued, 0 ≤ t ∧ t < s.threadCounter :=
    fun t ht => h.created t (hsub.subset (hchosen.mem_iff.1 ht))
  have hheld : s'.held = s'.ctask.thread :: s'.queued := by
    rw [held, running_of_ne]
    · rfl
    · intro hc
      have hpos := (hcreated _ List.mem_cons_self).1
      rw [hc] at hpos
      exact absurd hpos (by decide)
  refine ⟨hi.ok, ?_, ?_⟩
  · rw [hheld, hchosen.nodup_iff]
    exact hsub.nodup h.nodup
  · rw [hheld, hi.threadCounter]
    exact hcreated

theorem QueueSound.modifyThread (h : s.QueueSound) (thread : Int) {f : Thread → Thread}
    (hf : ∀ th, (f th).proc = th.proc) : (s.modifyThread thread f).QueueSound :=
  ⟨h.ok.modifyThread thread hf, h.nodup, h.created⟩

theorem QueueSound.step (h : s.QueueSound) (ht : s.OfferStep s') : s'.QueueSound := by
  obtain ⟨c, hc, he⟩ := ht
  cases c with
  | create leftover name dir =>
    cases he
    exact ⟨h.ok.create leftover name dir, h.nodup, h.created⟩
  | spawnThread this entry nstack =>
    cases he
    exact h.spawnThread this entry nstack
  | kill thread =>
    cases he
    exact h.modifyThread thread fun _ => rfl
  | schedulerPreempt fuel oldStack =>
    obtain ⟨⟨d, s₂⟩, hp, rfl⟩ := Option.map_eq_some_iff.1 he
    obtain ⟨s₁, hi, hs⟩ := schedulerPreempt_some hp
    have hsave : (s.saveStack oldStack).QueueSound := by
      rw [saveStack]
      split_ifs
      · exact h.modifyThread _ fun _ => rfl
      · exact h
    have h₁ := hsave.incremented
      (schedulerIncrement_spec hsave.ok (saveStack_queued_ne h.ok oldStack hc) hi)
    rcases hs with rfl | ⟨_, rfl⟩
    · exact h₁
    · exact h₁.modifyThread _ fun _ => rfl

theorem newThread_spawnThread (ok : s.Ok) (hp : s.procTable.get p = some proc)
    (entry nstack : Nat) (t : Int) :
    NewThread s (s.spawnThread p entry nstack).2 t ↔
      t = s.threadCounter ∧ s.threadTable.size < HASHTABLE_CAPACITY := by
  rw [spawnThread_some hp, NewThread]
  change _ ∧ (s.enrol p proc entry nstack).threadTable.get t ≠ none ↔ _
  rw [get_enrol ok]
  split_ifs with hc
  · rw [hc.1, ok.freshThread]
    simp [hc.2]
  · exact iff_of_false (fun hn => hn.2 hn.1) hc

theorem listed_spawnThread (hp : s.procTable.get p = some proc) (entry nstack : Nat) (l : Int) :
    (s.spawnThread p entry nstack).2.listed p l =
      (proc.threads.add proc.threadCounter s.threadCounter).2.get l := by
  have hget : (s.enrol p proc entry nstack).procTable.get p = some { proc with
      threadCounter := proc.threadCounter + 1
      threads := (proc.threads.add proc.threadCounter s.threadCounter).2 } := by
    rw [enrol, get_modifyProc, if_pos rfl]
    change ((s.modifyProc p _).procTable.get p).map _ = _
    rw [get_modifyProc, if_pos rfl, hp]
    rfl
  rw [spawnThread_some hp, listed]
  change ((s.enrol p proc entry nstack).procTable.get p).bind _ = _
  rw [hget]
  rfl

theorem getLid_spawnThread (ok : s.Ok) (hp : s.procTable.get p = some proc)
    (hroom : s.threadTable.size < HASHTABLE_CAPACITY) (entry nstack : Nat) :
    (s.spawnThread p entry nstack).2.getLid s.threadCounter = proc.threadCounter := by
  rw [getLid, get_spawnThread ok hp hroom, if_pos rfl]

theorem QueueSound.admitted_iff (h : s.QueueSound) (hp : s.procTable.get p = some proc)
    (entry nstack : Nat) :
    Admitted s (s.spawnThread p entry nstack).2 p ↔
      s.threadTable.size < HASHTABLE_CAPACITY ∧
      proc.threads.Takes proc.threadCounter s.threadCounter ∧
      s.schedule.length < SCHEDULE_SIZE := by
  have hok := h.ok.enrol (by rw [hp]; exact Option.some_ne_none proc) proc entry nstack
  obtain ⟨kept, hsub, hroom, hfull, hlist⟩ := queued_schedulerSchedule hok s.threadCounter 0
  have hqueued : (s.spawnThread p entry nstack).2.queued = kept ++ [s.threadCounter] := by
    rw [spawnThread_some hp, hlist]
  have hheld : (s.spawnThread p entry nstack).2.held =
      s.running ++ (kept ++ [s.threadCounter]) := by
    rw [held, hqueued, spawnThread_some hp]
    rfl
  constructor
  · rintro ⟨t, hnew, hlisted, -, hkept⟩
    obtain ⟨rfl, hsize⟩ := (newThread_spawnThread h.ok hp entry nstack t).1 hnew
    rw [getLid_spawnThread h.ok hp hsize, listed_spawnThread hp] at hlisted
    refine ⟨hsize, Hashtable.get_add_self_iff.1 hlisted, ?_⟩
    by_contra hlen
    obtain ⟨oldest, rest, hcons⟩ : ∃ oldest rest, s.queued = oldest :: rest := by
      apply List.exists_cons_of_ne_nil
      intro hnil
      rw [← length_queued, hnil] at hlen
      exact hlen (by decide)
    have hnodup := h.nodup
    rw [held, hcons, List.nodup_append, List.nodup_cons] at hnodup
    have hmem : oldest ∈ s.held := by
      rw [held, hcons]
      exact List.mem_append_right _ List.mem_cons_self
    have hlost := hkept oldest hmem
    have htail : kept = rest := (hfull hlen).trans (congrArg List.tail hcons)
    rw [hheld, htail, List.mem_append, List.mem_append, List.mem_singleton] at hlost
    rcases hlost with hrun | hrest | hnew
    · exact hnodup.2.2 oldest hrun oldest List.mem_cons_self rfl
    · exact hnodup.2.1.1 hrest
    · exact Int.ne_of_lt (h.created oldest hmem).2 hnew
  · rintro ⟨hsize, htakes, hlen⟩
    refine ⟨s.threadCounter, (newThread_spawnThread h.ok hp entry nstack _).2 ⟨rfl, hsize⟩, ?_, ?_,
      fun x hx => ?_⟩
    · rw [getLid_spawnThread h.ok hp hsize, listed_spawnThread hp]
      exact Hashtable.get_add_self_iff.2 htakes
    · rw [hqueued]
      exact List.mem_append_right _ List.mem_cons_self
    · rw [hheld, hroom hlen, ← List.append_assoc]
      exact List.mem_append_left _ hx

/-- What has to hold for a spawn in a live process. -/
structure RoomFor (s : Procs) (proc : Proc) : Prop where
  threadTable : s.threadTable.size < HASHTABLE_CAPACITY
  threads : proc.threads.Takes proc.threadCounter s.threadCounter
  schedule : s.schedule.length < SCHEDULE_SIZE

theorem QueueSound.allOrNothing_iff (h : s.QueueSound) (p : Int) (entry nstack : Nat)
    (live : List Nat) :
    s.AllOrNothing p entry nstack live ↔
      ∀ proc, s.procTable.get p = some proc → s.RoomFor proc := by
  cases hp : s.procTable.get p with
  | none =>
    refine iff_of_true (.inr ?_) nofun
    rw [spawnThread_none hp, spawnBlocks, hp]
    exact ⟨rfl, rfl, rfl, rfl, rfl⟩
  | some proc =>
    have hblock : ¬ TurnedAway s (s.spawnThread p entry nstack).2 p
        (s.spawnThread p entry nstack).1 live (s.spawnBlocks p nstack live) := by
      intro haway
      have hheap := haway.heap
      rw [spawnBlocks, hp] at hheap
      exact List.cons_ne_self nstack live hheap
    rw [AllOrNothing, or_iff_left hblock, h.admitted_iff hp]
    constructor
    · rintro ⟨h₁, h₂, h₃⟩ _ ⟨⟩
      exact ⟨h₁, h₂, h₃⟩
    · intro hall
      obtain ⟨h₁, h₂, h₃⟩ := hall proc rfl
      exact ⟨h₁, h₂, h₃⟩

theorem QueueSound.run (hr : Reachable (· = Procs.boot) OfferStep s) : s.QueueSound := by
  apply hr.invariant
  · rintro _ rfl
    exact .boot
  · exact fun _ _ h ht => h.step ht

/-- `spawn_thread` is all or nothing exactly when there is no such process, or both tables and the
queue have room. -/
theorem spawnThread_allOrNothing_iff (hr : Reachable (· = boot) OfferStep s) (p : Int)
    (entry nstack : Nat) (live : List Nat) :
    s.AllOrNothing p entry nstack live ↔
      ∀ proc, s.procTable.get p = some proc → s.RoomFor proc :=
  (QueueSound.run hr).allOrNothing_iff p entry nstack live

theorem spawnThread_allOrNothing_pair : pair.AllOrNothing 1 7 9000 [5000, 100] := by
  have hr : Reachable (· = boot) OfferStep pair :=
    pair_harmless.mono fun _ _ ⟨c, hc, h⟩ => ⟨c, by cases c <;> trivial, h⟩
  refine (spawnThread_allOrNothing_iff hr 1 7 9000 [5000, 100]).2 ?_
  rintro _ ⟨⟩
  exact ⟨by decide, ⟨2, by decide, .inl rfl⟩, by decide⟩

def crowd : Nat → Procs
  | 0 => (boot.create default [] 0).2
  | n + 1 => ((crowd n).spawnThread 1 7 (4096 * (n + 1))).2

theorem crowd_reachable (n : Nat) : Reachable (· = boot) OfferStep (crowd n) := by
  induction n with
  | zero => exact .step (.init rfl) ⟨.create default [] 0, trivial, rfl⟩
  | succ n ih => exact ih.step ⟨.spawnThread 1 7 (4096 * (n + 1)), trivial, rfl⟩

theorem crowd_process (n : Nat) : (crowd n).procTable.get 1 ≠ none := by
  induction n with
  | zero => exact Option.some_ne_none _
  | succ n ih =>
    obtain ⟨proc, hp⟩ := Option.ne_none_iff_exists'.1 ih
    rw [crowd, spawnThread_some hp]
    apply (live_modifyProc ..).2
    exact (live_modifyProc ..).2 ih

theorem crowd_size (n : Nat) : (crowd n).threadTable.size = min n HASHTABLE_CAPACITY := by
  induction n with
  | zero => rfl
  | succ n ih =>
    obtain ⟨proc, hp⟩ := Option.ne_none_iff_exists'.1 (crowd_process n)
    have hsize := size_enrol (QueueSound.run (crowd_reachable n)).ok 1 proc 7 (4096 * (n + 1))
    rw [crowd, spawnThread_some hp]
    change ((crowd n).enrol 1 proc 7 _).threadTable.size = _
    rw [hsize, ih]
    omega

/-- With 256 threads the next one gets no slot, and is scheduled all the same. -/
theorem spawnThread_not_allOrNothing : Reachable (· = boot) OfferStep (crowd 256) ∧
    (crowd 256).procTable.get 1 ≠ none ∧ (crowd 256).threadTable.size = HASHTABLE_CAPACITY ∧
    ¬ (crowd 256).AllOrNothing 1 7 0 [] := by
  have hr := crowd_reachable 256
  refine ⟨hr, crowd_process 256, crowd_size 256, fun h => ?_⟩
  obtain ⟨proc, hp⟩ := Option.ne_none_iff_exists'.1 (crowd_process 256)
  have hroom := (((QueueSound.run hr).allOrNothing_iff 1 7 0 []).1 h proc hp).threadTable
  rw [crowd_size 256] at hroom
  exact lt_irrefl _ hroom

end Procs
end Tupai
