import Mathlib.Data.Fintype.Basic
import Tupai.Syscall

namespace Tupai
open Lib
set_option autoImplicit true

/-- Where a thread is: outside, in a critical section of its own, or in `fifo_t::write` or
`fifo_t::read` before a step of it. -/
inductive FifoPoint (T : Type u) where
  | idle
  | workLock
  | work
  | writeLock (item : T)
  | writePush (item : T)
  | writeUnlock
  | readWait
  | readLock
  | readTest
  | readRetry
  | readPop
  | readUnlock (item : T)
deriving DecidableEq

namespace FifoPoint

/-- Between the return of `lock` and the call of `unlock`. -/
def Inside : FifoPoint T → Prop
  | .work | .writePush _ | .writeUnlock | .readTest | .readRetry | .readPop | .readUnlock _ => True
  | .idle | .workLock | .writeLock _ | .readWait | .readLock => False

/-- Before the call of `lock`. -/
def Locks : FifoPoint T → Prop
  | .workLock | .writeLock _ | .readLock => True
  | _ => False

theorem Locks.not_inside {p : FifoPoint T} (h : p.Locks) : ¬ p.Inside := by
  cases p with
  | workLock | writeLock | readLock => exact id
  | idle | work | writePush | writeUnlock | readWait | readTest | readRetry | readPop
    | readUnlock => exact h.elim

instance : (p : FifoPoint T) → Decidable p.Inside
  | .work | .writePush _ | .writeUnlock | .readTest | .readRetry | .readPop | .readUnlock _ =>
    isTrue trivial
  | .idle | .workLock | .writeLock _ | .readWait | .readLock => isFalse id

instance : (p : FifoPoint T) → Decidable p.Locks
  | .workLock | .writeLock _ | .readLock => isTrue trivial
  | .idle | .work | .writePush _ | .writeUnlock | .readWait | .readTest | .readRetry | .readPop
    | .readUnlock _ => isFalse id

end FifoPoint

/-- The threads that use one `fifo_t`: its queue, the address of its mutex, and for each thread
where it is and the stack that it calls the kernel on. -/
structure FifoRun (ι : Type) (T : Type u) (δ : Type v) where
  kernel : Kernel δ
  queue : Queue T
  mutex : Nat
  points : ι → FifoPoint T
  stackPtr : ι → Nat

inductive FifoAction (ι : Type) (T : Type u) where
  | work (t : ι)
  | write (t : ι) (item : T)
  | read (t : ι)
  | run (t : ι)

def FifoAction.thread : FifoAction ι T → ι
  | .work t | .write t _ | .read t | .run t => t

namespace FifoRun

variable {ι : Type} {s s' : FifoRun ι T δ} {a : FifoAction ι T} {t u : ι}

/-- No thread uses the fifo yet. -/
def Start (s : FifoRun ι T δ) : Prop := ∀ t, s.points t = .idle

/-- At most one thread is in a critical section, and no thread comes to pop an empty queue. -/
structure Excludes (s : FifoRun ι T δ) : Prop where
  exclusive : ∀ t u, (s.points t).Inside → (s.points u).Inside → t = u
  nonempty : ∀ t, s.points t = .readPop → s.queue.len ≠ 0

/-- A thread calls `lock` only while no other one is in its critical section. -/
def Spares (s : FifoRun ι T δ) (a : FifoAction ι T) : Prop :=
  (s.points a.thread).Locks → ∀ u, ¬ (s.points u).Inside

instance [Fintype ι] (s : FifoRun ι T δ) (a : FifoAction ι T) : Decidable (s.Spares a) :=
  inferInstanceAs (Decidable (_ → _))

theorem Excludes.start (h : s.Start) : s.Excludes where
  exclusive t u ht := by
    rw [h t] at ht
    exact ht.elim
  nonempty t ht := by
    rw [h t] at ht
    cases ht

variable [DecidableEq ι] (V : Vtables δ) (fuel N : Nat)

def become (s : FifoRun ι T δ) (t : ι) (p : FifoPoint T) : FifoRun ι T δ :=
  { s with points := Function.update s.points t p }

/-- The call of `lock`, and where it returns to. -/
def lock (s : FifoRun ι T δ) (t : ι) (p : FifoPoint T) : Option (FifoRun ι T δ) :=
  (s.kernel.lock V fuel (s.stackPtr t) s.mutex).map fun k => { s with kernel := k }.become t p

def unlock (s : FifoRun ι T δ) (t : ι) (p : FifoPoint T) : Option (FifoRun ι T δ) :=
  (s.kernel.unlock V fuel (s.stackPtr t) s.mutex).map fun k => { s with kernel := k }.become t p

/-- A thread that is idle starts something, or one that is not does a step of it. -/
def step (s : FifoRun ι T δ) : FifoAction ι T → Option (FifoRun ι T δ)
  | .work t =>
    match s.points t with
    | .idle => some (s.become t .workLock)
    | _ => none
  | .write t item =>
    match s.points t with
    | .idle => some (s.become t (.writeLock item))
    | _ => none
  | .read t =>
    match s.points t with
    | .idle => some (s.become t .readWait)
    | _ => none
  | .run t =>
    match s.points t with
    | .idle => none
    | .workLock => s.lock V fuel t .work
    | .work => s.unlock V fuel t .idle
    | .writeLock item => s.lock V fuel t (.writePush item)
    | .writePush item => some ({ s with queue := s.queue.push N item }.become t .writeUnlock)
    | .writeUnlock => s.unlock V fuel t .idle
    | .readWait => some (s.become t (if s.queue.len = 0 then .readWait else .readLock))
    | .readLock => s.lock V fuel t .readTest
    | .readTest => some (s.become t (if s.queue.len > 0 then .readPop else .readRetry))
    | .readRetry => s.unlock V fuel t .readWait
    | .readPop =>
      let (item, queue) := s.queue.pop N
      some ({ s with queue := queue }.become t (.readUnlock item))
    | .readUnlock _ => s.unlock V fuel t .idle

def SparingStep (s s' : FifoRun ι T δ) : Prop := ∃ a, s.Spares a ∧ s.step V fuel N a = some s'

variable {V fuel N}

@[simp] theorem lock_eq (s : FifoRun ι T δ) (t : ι) (p : FifoPoint T) :
    s.lock V fuel t p = some (s.become t p) := by
  rw [lock, Kernel.lock_eq]
  rfl

@[simp] theorem unlock_eq (s : FifoRun ι T δ) (t : ι) (p : FifoPoint T) :
    s.unlock V fuel t p = some (s.become t p) := by
  rw [unlock, Kernel.unlock_eq]
  rfl

@[simp] theorem become_self (s : FifoRun ι T δ) (t : ι) (p : FifoPoint T) :
    (s.become t p).points t = p := Function.update_self ..

theorem become_of_ne (s : FifoRun ι T δ) (p : FifoPoint T) (h : u ≠ t) :
    (s.become t p).points u = s.points u := Function.update_of_ne h ..

/-- What a step of a thread is made of. -/
inductive Moves (s : FifoRun ι T δ) (t : ι) : FifoRun ι T δ → Prop where
  | stay (p : FifoPoint T) : ¬ (s.points t).Locks → ¬ p.Inside → Moves s t (s.become t p)
  | enter (p : FifoPoint T) : (s.points t).Locks → p.Inside → p ≠ .readPop →
      Moves s t (s.become t p)
  | work (p : FifoPoint T) (q : Queue T) : (s.points t).Inside → (p = .readPop → q.len ≠ 0) →
      Moves s t ({ s with queue := q }.become t p)

theorem step_moves (hs : s.step V fuel N a = some s') : s.Moves a.thread s' := by
  cases a with
  | work t | write t item | read t =>
    simp only [step] at hs
    split at hs
    · rename_i hp
      cases hs
      exact .stay _ (by rw [FifoAction.thread, hp]; exact id) id
    · cases hs
  | run t =>
    rw [FifoAction.thread]
    cases hp : s.points t with
    | idle =>
      simp only [step, hp] at hs
      cases hs
    | workLock | writeLock item | readLock =>
      simp only [step, hp, lock_eq] at hs
      cases hs
      exact .enter _ (by rw [hp]; trivial) trivial nofun
    | work | writeUnlock | readRetry | readUnlock item =>
      simp only [step, hp, unlock_eq] at hs
      cases hs
      exact .stay _ (by rw [hp]; exact id) id
    | readWait =>
      simp only [step, hp] at hs
      cases hs
      refine .stay _ (by rw [hp]; exact id) ?_
      split_ifs <;> exact id
    | writePush item =>
      simp only [step, hp] at hs
      cases hs
      exact .work _ _ (by rw [hp]; trivial) nofun
    | readPop =>
      simp only [step, hp] at hs
      cases hs
      exact .work _ _ (by rw [hp]; trivial) nofun
    | readTest =>
      simp only [step, hp] at hs
      cases hs
      refine .work _ s.queue (by rw [hp]; trivial) fun hpop => ?_
      split_ifs at hpop with hlen
      exact Nat.ne_of_gt hlen

/-- A thread moves on where there is no other one in a critical section. -/
theorem Excludes.alone (halone : ∀ u, u ≠ t → ¬ (s.points u).Inside)
    (hpop : p = .readPop → s.queue.len ≠ 0) : (s.become t p).Excludes := by
  have hother {u : ι} (hu : ((s.become t p).points u).Inside) : u = t := by
    by_contra hne
    rw [become_of_ne s p hne] at hu
    exact halone u hne hu
  constructor
  · intro u v hu hv
    rw [hother hu, hother hv]
  · intro u hu
    obtain rfl : u = t := hother (by rw [hu]; trivial)
    rw [become_self] at hu
    exact hpop hu

theorem Excludes.stay (h : s.Excludes) (hp : ¬ p.Inside) : (s.become t p).Excludes := by
  have hother {u : ι} (hu : ((s.become t p).points u).Inside) : u ≠ t := by
    rintro rfl
    rw [become_self] at hu
    exact hp hu
  constructor
  · intro u v hu hv
    have hut := hother hu
    have hvt := hother hv
    rw [become_of_ne s p hut] at hu
    rw [become_of_ne s p hvt] at hv
    exact h.exclusive u v hu hv
  · intro u hu
    have hut : u ≠ t := hother (by rw [hu]; trivial)
    rw [become_of_ne s p hut] at hu
    exact h.nonempty u hu

theorem Excludes.step (h : s.Excludes) (ha : s.Spares a) (hs : s.step V fuel N a = some s') :
    s'.Excludes := by
  cases step_moves hs with
  | stay p _ hp => exact h.stay hp
  | enter p hlock _ hpop => exact .alone (fun u _ => ha hlock u) fun he => absurd he hpop
  | work p q hin hpop =>
    refine Excludes.alone (fun u hne hu => hne ?_) hpop
    exact h.exclusive u _ hu hin

/-- Two threads are in critical sections once one locks while another one is in its. -/
theorem not_excludes_of_lock (ha : ¬ s.Spares a) (hs : s.step V fuel N a = some s') :
    ¬ s'.Excludes := by
  rw [Spares] at ha
  push Not at ha
  obtain ⟨hlock, u, hu⟩ := ha
  have hne : u ≠ a.thread := by
    rintro rfl
    exact hlock.not_inside hu
  intro h
  cases step_moves hs with
  | stay p hp => exact hp hlock
  | work p q hin => exact hlock.not_inside hin
  | enter p _ hp =>
    refine hne (h.exclusive u a.thread ?_ ?_)
    · rwa [become_of_ne s p hne]
    · rwa [become_self]

/-- The mutex excludes, and no empty queue is popped, as long as nothing calls `lock` while a thread
is in a critical section; a call that does puts two threads in theirs. -/
theorem fifo_excludes (hr : Reachable Start (SparingStep V fuel N) s) :
    s.Excludes ∧ ∀ a s', s.step V fuel N a = some s' →
      (s.Spares a ↔ ∀ d, Reachable (· = s') (SparingStep V fuel N) d → d.Excludes) := by
  refine exact_guard (I := Excludes) (fun _ h => h) ?_ (fun _ a _ ha hs => ⟨a, ha, hs⟩) ?_ ?_
  · rintro _ _ h ⟨a, ha, hs⟩
    exact h.step ha hs
  · intro _ a s' _ ha hs
    exact ⟨s', .init rfl, not_excludes_of_lock ha hs⟩
  · apply hr.invariant
    · exact fun _ h => .start h
    · rintro _ _ h ⟨a, ha, hs⟩
      exact h.step ha hs

def twoThreads : FifoRun (Fin 2) Byte Devices :=
  ⟨.initial, .empty 0, 0x5000, fun _ => .idle, fun _ => 0x9000⟩

/-- Thread 0 writes a byte, and thread 1 reads it. -/
def writeRead : List (FifoAction (Fin 2) Byte) :=
  [.write 0 7, .run 0, .run 0, .run 0, .read 1, .run 1, .run 1, .run 1]

theorem fifo_excludes_writeRead : ∃ s : FifoRun (Fin 2) Byte Devices,
    perform (guarded Spares (step (vtables 64) 1 16)) twoThreads writeRead = some s ∧ s.Excludes ∧
      ∀ a s', s.step (vtables 64) 1 16 a = some s' →
        (s.Spares a ↔ ∀ d, Reachable (· = s') (SparingStep (vtables 64) 1 16) d → d.Excludes) := by
  have hrun : (perform (guarded Spares (step (vtables 64) 1 16)) twoThreads writeRead).isSome := by
    decide
  obtain ⟨s, hs⟩ := Option.isSome_iff_exists.1 hrun
  have hstart : Reachable Start (SparingStep (vtables 64) 1 16) twoThreads := .init fun _ => rfl
  exact ⟨s, hs, fifo_excludes (hstart.perform (fun _ a _ ha hs => ⟨a, ha, hs⟩) hs)⟩

/-- Both threads wait for the byte of thread 0, lock, and find it. -/
def readTwice : List (FifoAction (Fin 2) Byte) :=
  [.write 0 7, .run 0, .run 0, .run 0, .read 0, .read 1, .run 0, .run 1, .run 0, .run 1, .run 0,
    .run 1, .run 0]

/-- The second of two readers that are in their critical sections pops the empty queue. -/
theorem not_fifo_excludes : twoThreads.Start ∧
    (∃ s, perform (step (vtables 64) 1 16) twoThreads (readTwice.take 10) = some s ∧
      (s.points 0).Inside ∧ (s.points 1).Inside) ∧
    ∃ s, perform (step (vtables 64) 1 16) twoThreads readTwice = some s ∧
      (s.points 1 = .readPop ∧ s.queue.len = 0) ∧
      ∃ s', s.step (vtables 64) 1 16 (.run 1) = some s' ∧ s'.queue.len = 2 ^ 64 - 1 := by
  have hlock : (perform (step (vtables 64) 1 16) twoThreads (readTwice.take 10)).any fun s =>
      (s.points 0).Inside ∧ (s.points 1).Inside := by decide
  have hpop : (perform (step (vtables 64) 1 16) twoThreads readTwice).any fun s =>
      (s.points 1 = .readPop ∧ s.queue.len = 0) ∧
      (s.step (vtables 64) 1 16 (.run 1)).any fun s' => s'.queue.len = 2 ^ 64 - 1 := by decide
  obtain ⟨s, hs, hinside⟩ := (Option.any_eq_true _ _).1 hlock
  obtain ⟨r, hr, hstate⟩ := (Option.any_eq_true _ _).1 hpop
  rw [decide_eq_true_eq] at hinside hstate
  obtain ⟨hat, hnext⟩ := hstate
  obtain ⟨r', hr', hlen⟩ := (Option.any_eq_true _ _).1 hnext
  exact ⟨fun _ => rfl, ⟨s, hs, hinside⟩, r, hr, hat, r', hr', of_decide_eq_true hlen⟩

end FifoRun

end Tupai
