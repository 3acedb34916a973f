import Tupai.Lib.Transition
import Tupai.Process

namespace Tupai
open Lib
set_option autoImplicit true

inductive SpawnStep : Procs → Procs → Prop where
  | create (s : Procs) (leftover : Proc) (name : Chars) (dir : Int) :
      SpawnStep s (s.create leftover name dir).2
  | spawnThread (s : Procs) (this : Int) (entry nstack : Nat) :
      SpawnStep s (s.spawnThread this entry nstack).2

namespace Procs

/-- The thread is in the table now and was not before. -/
def NewThread (s s' : Procs) (t : Int) : Prop :=
  s.threadTable.get t = none ∧ s'.threadTable.get t ≠ none

def listed (s : Procs) (p l : Int) : Option Int := (s.procTable.get p).bind (·.threads.get l)

/-- The value that a call returned is a handle to the thread it made in process `p`. -/
structure Designates (s s' : Procs) (p : Int) (entry : Nat) (h : Int) : Prop where
  process : s'.getProcess h = p
  entry : s'.getEntry h = entry
  state : s'.getState h = .NEW
  deletes : ∀ t, NewThread s s' t → (s'.deleteThread p h).2.threadTable.get t = none
  spares : ∀ t, ¬ NewThread s s' t →
    (s'.deleteThread p h).2.threadTable.get t = s'.threadTable.get t
  unlists : ∀ q l, q ≠ p ∨ l ≠ s'.getLid h → (s'.deleteThread p h).2.listed q l = s'.listed q l
  kills : ∀ t, NewThread s s' t → (s'.kill h).2.getState t = .DEAD
  leaves : ∀ t, ¬ NewThread s s' t → (s'.kill h).2.threadTable.get t = s'.threadTable.get t

variable {s : Procs}

theorem Ok.spawnRun (hr : Reachable (· = boot) SpawnStep s) : s.Ok := by
  apply hr.invariant
  · rintro _ rfl
    exact boot_ok
  · intro s t ok ht
    cases ht with
    | create leftover name dir => exact ok.create leftover name dir
    | spawnThread this entry nstack => exact ok.spawnThread this entry nstack

theorem get_spawnThread (ok : s.Ok) (hp : s.procTable.get p = some proc)
    (hroom : s.threadTable.size < HASHTABLE_CAPACITY) (entry nstack : Nat) (t : Int) :
    (s.spawnThread p entry nstack).2.threadTable.get t =
      if t = s.threadCounter then
        some ⟨s.threadCounter, proc.threadCounter, p, .NEW, entry,
          nstack + THREAD_STACK_SIZE, nstack⟩
      else s.threadTable.get t := by
  rw [spawnThread_some hp]
  change (s.enrol p proc entry nstack).threadTable.get t = _
  rw [get_enrol ok]
  simp only [and_iff_left hroom]

theorem newThread_iff (ok : s.Ok) (hp : s.procTable.get p = some proc)
    (hroom : s.threadTable.size < HASHTABLE_CAPACITY) (entry nstack : Nat) (t : Int) :
    NewThread s (s.spawnThread p entry nstack).2 t ↔ t = s.threadCounter := by
  rw [NewThread, get_spawnThread ok hp hroom]
  split_ifs with ht
  · rw [ht, ok.freshThread]
    simp
  · simp [ht]

theorem listed_deleteThread (s : Procs) (p thread : Int) (h : q ≠ p ∨ l ≠ s.getLid thread) :
    (s.deleteThread p thread).2.listed q l = s.listed q l := by
  cases hp : s.procTable.get p with
  | none => rw [deleteThread_none hp]
  | some proc =>
    rw [deleteThread_some hp, listed, listed, get_modifyProc]
    split_ifs with hq
    · subst hq
      rw [hp]
      exact Hashtable.get_remove_other _ (h.resolve_left (not_not.2 rfl))
    · rfl

theorem designates_threadCounter (ok : s.Ok) (hp : s.procTable.get p = some proc)
    (hroom : s.threadTable.size < HASHTABLE_CAPACITY) (entry nstack : Nat) :
    Designates s (s.spawnThread p entry nstack).2 p entry s.threadCounter := by
  have hget := get_spawnThread ok hp hroom entry nstack
  have hnew := newThread_iff ok hp hroom entry nstack
  have hself := (hget s.threadCounter).trans (if_pos rfl)
  have hprocess : (s.spawnThread p entry nstack).2.getProcess s.threadCounter = p := by
    rw [getProcess, hself]
  have hdelete := get_deleteThread (ok.spawnThread p entry nstack) s.threadCounter
  rw [hprocess] at hdelete
  refine ⟨hprocess, ?_, ?_, ?_, ?_, ?_, ?_, ?_⟩
  · rw [getEntry, hself]
  · rw [getState, hself]
  · intro t ht
    rw [hdelete, if_pos ((hnew t).1 ht)]
  · intro t ht
    rw [hdelete, if_neg fun he => ht ((hnew t).2 he)]
  · exact fun q l => listed_deleteThread _ p _
  · intro t ht
    rw [getState_kill, if_pos ((hnew t).1 ht)]
  · intro t ht
    rw [kill, setState, get_modifyThread, if_neg fun he => ht ((hnew t).2 he)]

/-- `spawn_thread` returns the local id, which is a handle to the new thread exactly when the
process's own counter agrees with the global one. -/
theorem spawnThread_designates_iff (hr : Reachable (· = boot) SpawnStep s)
    (hp : s.procTable.get p = some proc) (hroom : s.threadTable.size < HASHTABLE_CAPACITY)
    (entry nstack : Nat) :
    Designates s (s.spawnThread p entry nstack).2 p entry (s.spawnThread p entry nstack).1 ↔
      proc.threadCounter = s.threadCounter := by
  have ok := Ok.spawnRun hr
  have hret : (s.spawnThread p entry nstack).1 = proc.threadCounter := by
    rw [spawnThread_some hp]
  rw [hret]
  constructor
  · intro hd
    by_contra hne
    have hdead := hd.kills _ ((newThread_iff ok hp hroom entry nstack _).2 rfl)
    rw [getState_kill, if_neg (Ne.symm hne), getState, get_spawnThread ok hp hroom,
      if_pos rfl] at hdead
    cases hdead
  · intro he
    rw [he]
    exact designates_threadCounter ok hp hroom entry nstack

def twoProcs : Procs :=
  (((boot.create default [] 0).2.create default [] 0).2.spawnThread 1 7 100).2

theorem twoProcs_reachable : Reachable (· = boot) SpawnStep twoProcs :=
  .step (.step (.step (.init rfl) (.create boot default [] 0)) (.create _ default [] 0))
    (.spawnThread _ 1 7 100)

theorem spawnThread_designates_twoProcs :
    Designates twoProcs (twoProcs.spawnThread 1 9 5000).2 1 9 (twoProcs.spawnThread 1 9 5000).1 :=
  (spawnThread_designates_iff twoProcs_reachable rfl (by decide) 9 5000).2 rfl

/-- The first thread of the second process gets the handle of the other process's thread. -/
theorem spawnThread_not_designates : Reachable (· = boot) SpawnStep twoProcs ∧
    twoProcs.procTable.get 2 ≠ none ∧ twoProcs.threadTable.size = 1 ∧
    (twoProcs.spawnThread 2 9 5000).1 = 0 ∧ (twoProcs.spawnThread 2 9 5000).2.getProcess 0 = 1 ∧
    ¬ Designates twoProcs (twoProcs.spawnThread 2 9 5000).2 2 9
      (twoProcs.spawnThread 2 9 5000).1 :=
  ⟨twoProcs_reachable, Option.some_ne_none _, rfl, rfl, rfl, fun h => absurd h.process (by decide)⟩

end Procs
end Tupai
