import Tupai.Spawn
import Tupai.Stdio

namespace Tupai
open Lib
set_option autoImplicit true

inductive ProcCall where
  | getFd (lfd : Int)
  | createFd (inode : Int)
  | deleteFd (lfd : Int)
  | spawnThread (entry nstack : Nat)
  | deleteThread (thread : Int)

namespace Kernel

def procCall (this : Int) (k : Kernel δ) : ProcCall → Int × Kernel δ
  | .getFd lfd => (k.procs.getFd this lfd, k)
  | .createFd inode => k.createFd this inode
  | .deleteFd lfd => ((k.procs.deleteFd this lfd).1, { k with
      procs := (k.procs.deleteFd this lfd).2 })
  | .spawnThread entry nstack => ((k.procs.spawnThread this entry nstack).1, { k with
      procs := (k.procs.spawnThread this entry nstack).2 })
  | .deleteThread thread => ((k.procs.deleteThread this thread).1, { k with
      procs := (k.procs.deleteThread this thread).2 })

def nextProc (k : Kernel δ) : Int := k.procs.procCounter + 1

/-- The state after `create`. -/
def create (k : Kernel δ) (leftover : Proc) (name : Chars) (dir : Int) : Kernel δ :=
  { k with procs := (k.procs.create leftover name dir).2 }

/-- The process has no descriptors and no threads, and takes 256 descriptors. -/
structure Blank (k : Kernel δ) (this : Int) : Prop where
  noFds : ∀ l, k.descriptor (this, l) = none ∧ k.procs.getFd this l = ID_INVALID
  noThreads : ∀ l, k.procs.listed this l = none
  accepts : ∀ inodes : List Int, inodes.length ≤ HASHTABLE_CAPACITY →
    (runCalls (procCall this) k (inodes.map .createFd)).1 =
      (List.range inodes.length).map Int.ofNat ∧
    ∀ l < inodes.length, (runCalls (procCall this) k (inodes.map .createFd)).2.procs.getFd this l =
      k.vfs.fdCounter + l

/-- What the new process does depends on neither of two contents of the stack. -/
structure Independent (k : Kernel δ) (name : Chars) (dir : Int) (g₁ g₂ : Proc) : Prop where
  same : ∀ calls, (runCalls (procCall k.nextProc) (k.create g₁ name dir) calls).1 =
    (runCalls (procCall k.nextProc) (k.create g₂ name dir) calls).1
  blank₁ : (k.create g₁ name dir).Blank k.nextProc
  blank₂ : (k.create g₂ name dir).Blank k.nextProc

end Kernel

/-- The stack happens to hold zeros where the used flags of the tables go. -/
def Proc.Cleared (leftover : Proc) : Prop :=
  ∀ i < HASHTABLE_CAPACITY, leftover.threads.used i = false ∧ leftover.fds.used i = false

namespace Hashtable

/-- The tables use the same slots, for the same keys and for related items. -/
structure Agree (R : T → T → Prop) (h h' : Hashtable T) : Prop where
  used : ∀ i < HASHTABLE_CAPACITY, h'.used i = h.used i
  keys : ∀ i < HASHTABLE_CAPACITY, h.used i = true → h'.keys i = h.keys i
  data : ∀ i < HASHTABLE_CAPACITY, h.used i = true → R (h.data i) (h'.data i)
  count : h'.itemCount = h.itemCount

variable {h h' : Hashtable T} {R : T → T → Prop}

theorem Agree.refl (hR : ∀ x, R x x) (h : Hashtable T) : h.Agree R h :=
  ⟨fun _ _ => rfl, fun _ _ _ => rfl, fun _ _ _ => hR _, rfl⟩

theorem Agree.slot (ha : h.Agree R h') (key : Int) : h'.slot key = h.slot key := by
  apply probe_congr
  intro i hi
  rw [ha.used i hi]
  cases hu : h.used i with
  | false => simp
  | true => rw [ha.keys i hi hu]

theorem Agree.freeSlot (ha : h.Agree R h') (key : Int) : h'.freeSlot key = h.freeSlot key := by
  apply probe_congr
  intro i hi
  rw [ha.used i hi]

theorem Agree.get (ha : h.Agree R h') (key : Int) :
    (h.get key = none ∧ h'.get key = none) ∨
      ∃ x y, h.get key = some x ∧ h'.get key = some y ∧ R x y := by
  rw [Hashtable.get, Hashtable.get, ha.slot]
  cases hs : h.slot key with
  | none => exact .inl ⟨rfl, rfl⟩
  | some i => exact .inr ⟨_, _, rfl, rfl, ha.data i (slot_some hs).1 (slot_some hs).2.2⟩

theorem Agree.get_eq (ha : h.Agree Eq h') (key : Int) : h'.get key = h.get key := by
  rcases ha.get key with ⟨hx, hy⟩ | ⟨x, y, hx, hy, rfl⟩ <;> rw [hx, hy]

theorem Agree.add (ha : h.Agree R h') (key : Int) (hR : R x y) :
    (h.add key x).2.Agree R (h'.add key y).2 := by
  rw [Hashtable.add, Hashtable.add, ha.freeSlot]
  cases h.freeSlot key with
  | none => exact ha
  | some i =>
    refine ⟨fun j hj => ?_, fun j hj hu => ?_, fun j hj hu => ?_, congrArg (· + 1) ha.count⟩ <;>
    by_cases hji : j = i
    · simp [hji]
    · simpa [Function.update_of_ne hji] using ha.used j hj
    · simp [hji]
    · simp only [Function.update_of_ne hji] at hu ⊢
      exact ha.keys j hj hu
    · simpa [hji] using hR
    · simp only [Function.update_of_ne hji] at hu ⊢
      exact ha.data j hj hu

theorem Agree.remove (ha : h.Agree R h') (key : Int) :
    (h.remove key).1 = (h'.remove key).1 ∧ (h.remove key).2.Agree R (h'.remove key).2 := by
  rw [Hashtable.remove, Hashtable.remove, ha.slot]
  cases h.slot key with
  | none => exact ⟨rfl, ha⟩
  | some i =>
    have hkept : ∀ j, Function.update h.used i false j = true → h.used j = true := by
      intro j hj
      by_cases hji : j = i
      · rw [hji, Function.update_self] at hj
        cases hj
      · rwa [Function.update_of_ne hji] at hj
    refine ⟨rfl, fun j hj => ?_, fun j hj hu => ha.keys j hj (hkept j hu),
      fun j hj hu => ha.data j hj (hkept j hu), congrArg (· - 1) ha.count⟩
    by_cases hji : j = i
    · simp [hji]
    · simpa [Function.update_of_ne hji] using ha.used j hj

theorem Agree.modify (ha : h.Agree R h') (key : Int) {f g : T → T}
    (hfg : ∀ x y, R x y → R (f x) (g y)) : (h.modify key f).Agree R (h'.modify key g) := by
  rw [Hashtable.modify, Hashtable.modify, ha.slot]
  cases h.slot key with
  | none => exact ha
  | some i =>
    refine ⟨ha.used, ha.keys, fun j hj hu => ?_, ha.count⟩
    by_cases hji : j = i
    · subst hji
      simpa using hfg _ _ (ha.data j hj hu)
    · simpa [Function.update_of_ne hji] using ha.data j hj hu

theorem Unused.agree (hu : h.Unused) (hu' : h'.Unused) : h.Agree R h' where
  used := fun i hi => by rw [hu.2 i hi, hu'.2 i hi]
  keys := fun i hi hui => by rw [hu.2 i hi] at hui; cases hui
  data := fun i hi hui => by rw [hu.2 i hi] at hui; cases hui
  count := by rw [hu.1, hu'.1]

theorem get_none_iff : (∀ key, h.get key = none) ↔ ∀ i < HASHTABLE_CAPACITY, h.used i = false := by
  constructor
  · intro hn i hi
    by_contra hu
    rw [Bool.not_eq_false] at hu
    exact slot_eq_none_iff.1 (get_eq_none_iff.1 (hn (h.keys i))) i hi hu rfl
  · intro hf key
    rw [get_eq_none_iff, slot_eq_none_iff]
    intro i hi hu
    rw [hf i hi] at hu
    cases hu

end Hashtable

/-- The processes differ at most in what no call can read. -/
structure ProcAgree (p p' : Proc) : Prop where
  id : p'.id = p.id
  name : cstr p'.name = cstr p.name
  dir : p'.dir = p.dir
  threadCounter : p'.threadCounter = p.threadCounter
  threads : p.threads.Agree Eq p'.threads
  lfdCounter : p'.lfdCounter = p.lfdCounter
  fds : p.fds.Agree Eq p'.fds

theorem ProcAgree.refl (p : Proc) : ProcAgree p p :=
  ⟨rfl, rfl, rfl, rfl, .refl (fun _ => rfl) _, rfl, .refl (fun _ => rfl) _⟩

theorem nproc_agree (h₁ : g₁.Cleared) (h₂ : g₂.Cleared) (id : Int) (name : Chars) (dir : Int) :
    ProcAgree (Procs.nproc g₁ id name dir) (Procs.nproc g₂ id name dir) where
  id := rfl
  name := by
    rw [Procs.nproc, Procs.nproc, cstr_strCpyN, cstr_strCpyN]
  dir := rfl
  threadCounter := rfl
  threads := Hashtable.Unused.agree ⟨rfl, fun i hi => (h₁ i hi).1⟩ ⟨rfl, fun i hi => (h₂ i hi).1⟩
  lfdCounter := rfl
  fds := Hashtable.Unused.agree ⟨rfl, fun i hi => (h₁ i hi).2⟩ ⟨rfl, fun i hi => (h₂ i hi).2⟩

variable {p p' : Proc} {t t' : Hashtable Int}

theorem ProcAgree.withThreadCounter (h : ProcAgree p p') (n : Int) :
    ProcAgree { p with threadCounter := n } { p' with threadCounter := n } :=
  ⟨h.id, h.name, h.dir, rfl, h.threads, h.lfdCounter, h.fds⟩

theorem ProcAgree.withThreads (h : ProcAgree p p') (ht : t.Agree Eq t') :
    ProcAgree { p with threads := t } { p' with threads := t' } :=
  ⟨h.id, h.name, h.dir, h.threadCounter, ht, h.lfdCounter, h.fds⟩

theorem ProcAgree.withLfdCounter (h : ProcAgree p p') (n : Int) :
    ProcAgree { p with lfdCounter := n } { p' with lfdCounter := n } :=
  ⟨h.id, h.name, h.dir, h.threadCounter, h.threads, rfl, h.fds⟩

theorem ProcAgree.withFds (h : ProcAgree p p') (ht : t.Agree Eq t') :
    ProcAgree { p with fds := t } { p' with fds := t' } :=
  ⟨h.id, h.name, h.dir, h.threadCounter, h.threads, h.lfdCounter, ht⟩

/-- The states differ at most in what no call on a process can read. -/
def Procs.Agree (s s' : Procs) : Prop :=
  ∃ t, s.procTable.Agree ProcAgree t ∧ s' = { s with procTable := t }

def Kernel.Agree (k k' : Kernel δ) : Prop := ∃ s, k.procs.Agree s ∧ k' = { k with procs := s }

namespace Procs

variable {s s' : Procs}

theorem Agree.get (h : s.Agree s') (p : Int) :
    (s.procTable.get p = none ∧ s'.procTable.get p = none) ∨
      ∃ x y, s.procTable.get p = some x ∧ s'.procTable.get p = some y ∧ ProcAgree x y := by
  obtain ⟨t, ht, rfl⟩ := h
  exact ht.get p

theorem Agree.modifyProc (h : s.Agree s') (p : Int) {f g : Proc → Proc}
    (hfg : ∀ x y, ProcAgree x y → ProcAgree (f x) (g y)) :
    (s.modifyProc p f).Agree (s'.modifyProc p g) := by
  obtain ⟨t, ht, rfl⟩ := h
  exact ⟨_, ht.modify p hfg, rfl⟩

theorem Agree.getFd (h : s.Agree s') (this lfd : Int) :
    s.getFd this lfd = s'.getFd this lfd := by
  rw [Procs.getFd, Procs.getFd]
  rcases h.get this with ⟨hp, hp'⟩ | ⟨p, p', hp, hp', ha⟩
  · rw [hp, hp']
  · simp only [hp, hp', ha.fds.get_eq]

theorem Agree.deleteFd (h : s.Agree s') (this lfd : Int) :
    (s.deleteFd this lfd).1 = (s'.deleteFd this lfd).1 ∧
      (s.deleteFd this lfd).2.Agree (s'.deleteFd this lfd).2 := by
  rw [Procs.deleteFd, Procs.deleteFd]
  rcases h.get this with ⟨hp, hp'⟩ | ⟨p, p', hp, hp', ha⟩
  · simp only [hp, hp']
    exact ⟨trivial, h⟩
  · simp only [hp, hp', (ha.fds.remove lfd).1]
    exact ⟨trivial, h.modifyProc this fun x y hxy => hxy.withFds (hxy.fds.remove lfd).2⟩

theorem Agree.spawnThread (h : s.Agree s') (this : Int) (entry nstack : Nat) :
    (s.spawnThread this entry nstack).1 = (s'.spawnThread this entry nstack).1 ∧
      (s.spawnThread this entry nstack).2.Agree (s'.spawnThread this entry nstack).2 := by
  rcases h.get this with ⟨hp, hp'⟩ | ⟨p, p', hp, hp', ha⟩
  · rw [spawnThread_none hp, spawnThread_none hp']
    exact ⟨rfl, h⟩
  · have hcounter : ∀ s : Procs, s.enrol this p' entry nstack = s.enrol this p entry nstack := by
      intro s
      rw [enrol, enrol, ha.threadCounter]
    rw [spawnThread_some hp, spawnThread_some hp', hcounter, ha.threadCounter]
    obtain ⟨t, ht, rfl⟩ := h
    have h₁ := ht.modify this fun x y hxy => hxy.withThreadCounter (p.threadCounter + 1)
    have h₂ := h₁.modify this fun x y hxy =>
      hxy.withThreads (hxy.threads.add p.threadCounter (Eq.refl s.threadCounter))
    exact ⟨rfl, _, h₂, rfl⟩

theorem Agree.deleteThread (h : s.Agree s') (this thread : Int) :
    (s.deleteThread this thread).1 = (s'.deleteThread this thread).1 ∧
      (s.deleteThread this thread).2.Agree (s'.deleteThread this thread).2 := by
  rcases h.get this with ⟨hp, hp'⟩ | ⟨p, p', hp, hp', ha⟩
  · rw [deleteThread_none hp, deleteThread_none hp']
    exact ⟨rfl, h⟩
  · rw [deleteThread_some hp, deleteThread_some hp']
    obtain ⟨t, ht, rfl⟩ := h
    have h₁ := ht.modify this fun x y hxy =>
      hxy.withThreads (hxy.threads.remove (s.getLid thread)).2
    exact ⟨rfl, _, h₁, rfl⟩

end Procs

variable {k k' : Kernel δ}

theorem Kernel.Agree.createFd (h : k.Agree k') (this inode : Int) :
    (k.createFd this inode).1 = (k'.createFd this inode).1 ∧
      (k.createFd this inode).2.Agree (k'.createFd this inode).2 := by
  obtain ⟨s, hs, rfl⟩ := h
  rcases hs.get this with ⟨hp, hp'⟩ | ⟨p, p', hp, hp', ha⟩
  · rw [Kernel.createFd, Kernel.createFd, hp, hp']
    exact ⟨rfl, s, hs, rfl⟩
  · rw [createFd_some hp, createFd_some (k := { k with procs := s }) hp', ha.lfdCounter]
    have h₁ := hs.modifyProc this fun x y hxy => hxy.withLfdCounter (p.lfdCounter + 1)
    have h₂ := h₁.modifyProc this fun x y hxy =>
      hxy.withFds (hxy.fds.add p.lfdCounter (Eq.refl k.vfs.fdCounter))
    exact ⟨rfl, _, h₂, rfl⟩

theorem Kernel.Agree.procCall (h : k.Agree k') (this : Int) (c : ProcCall) :
    (k.procCall this c).1 = (k'.procCall this c).1 ∧
      (k.procCall this c).2.Agree (k'.procCall this c).2 := by
  have hcreate := h.createFd this
  obtain ⟨s, hs, rfl⟩ := h
  cases c with
  | getFd lfd => exact ⟨hs.getFd this lfd, s, hs, rfl⟩
  | createFd inode => exact hcreate inode
  | deleteFd lfd =>
    obtain ⟨hout, hnext⟩ := hs.deleteFd this lfd
    exact ⟨hout, _, hnext, rfl⟩
  | spawnThread entry nstack =>
    obtain ⟨hout, hnext⟩ := hs.spawnThread this entry nstack
    exact ⟨hout, _, hnext, rfl⟩
  | deleteThread thread =>
    obtain ⟨hout, hnext⟩ := hs.deleteThread this thread
    exact ⟨hout, _, hnext, rfl⟩

/-- The process has exactly the local descriptors below `m`, made one after the other. -/
structure Kernel.Filled (k : Kernel δ) (this base : Int) (m : Nat) (proc : Proc) : Prop where
  get : k.procs.procTable.get this = some proc
  lfdCounter : proc.lfdCounter = m
  fdsOk : proc.fds.Ok
  size : proc.fds.size = m
  fds : ∀ l, proc.fds.get l = if 0 ≤ l ∧ l < m then some (base + l) else none
  fdCounter : k.vfs.fdCounter = base + m

theorem Kernel.Filled.createFd (h : k.Filled this base m proc) (hm : m < HASHTABLE_CAPACITY)
    (inode : Int) : (k.createFd this inode).1 = m ∧
      ∃ proc', (k.createFd this inode).2.Filled this base (m + 1) proc' := by
  have hnew : proc.fds.get proc.lfdCounter = none := by
    rw [h.fds, h.lfdCounter]
    exact if_neg fun hl => lt_irrefl _ hl.2
  obtain ⟨hok, hsize, hget⟩ := h.fdsOk.add_spec hnew (h.size ▸ hm) k.vfs.fdCounter
  have htable := createFd_procTable h.get inode this
  rw [if_pos rfl] at htable
  refine ⟨by rw [createFd_some h.get, h.lfdCounter], _, htable, ?_, hok, ?_, fun l => ?_, ?_⟩
  · simp only [h.lfdCounter, Nat.cast_add, Nat.cast_one]
  · rw [hsize, h.size]
  · rw [hget, h.fds, h.lfdCounter, h.fdCounter]
    split_ifs <;> first | rfl | omega | (congr 1; omega)
  · rw [createFd_some h.get]
    change k.vfs.fdCounter + 1 = _
    rw [h.fdCounter]
    omega

theorem Kernel.Filled.run (h : k.Filled this base m proc) (inodes : List Int)
    (hm : m + inodes.length ≤ HASHTABLE_CAPACITY) :
    (runCalls (Kernel.procCall this) k (inodes.map .createFd)).1 =
      (List.range' m inodes.length).map Int.ofNat ∧
    ∃ proc', (runCalls (Kernel.procCall this) k (inodes.map .createFd)).2.Filled this base
      (m + inodes.length) proc' := by
  induction inodes generalizing k m proc with
  | nil => exact ⟨rfl, proc, h⟩
  | cons inode inodes ih =>
    rw [List.length_cons] at hm
    obtain ⟨hret, proc₁, h₁⟩ := h.createFd (by omega) inode
    obtain ⟨houts, proc₂, h₂⟩ := ih h₁ (by omega)
    refine ⟨congrArg₂ List.cons hret houts, proc₂, ?_⟩
    rwa [List.length_cons, Nat.add_comm inodes.length, ← Nat.add_assoc]

theorem get_nextProc (h : k.procs.IdsOk) (hroom : k.procs.procTable.size < HASHTABLE_CAPACITY)
    (leftover : Proc) (name : Chars) (dir : Int) :
    (k.create leftover name dir).procs.procTable.get k.nextProc =
      some (Procs.nproc leftover k.nextProc name dir) :=
  (h.procOk.get_add h.fresh _ _).trans (if_pos ⟨rfl, hroom⟩)

theorem Kernel.Filled.create (h : k.procs.IdsOk)
    (hroom : k.procs.procTable.size < HASHTABLE_CAPACITY)
    (hg : leftover.Cleared) (name : Chars) (dir : Int) :
    (k.create leftover name dir).Filled k.nextProc k.vfs.fdCounter 0
      (Procs.nproc leftover k.nextProc name dir) := by
  have hu : (Procs.nproc leftover k.nextProc name dir).fds.Unused := ⟨rfl, fun i hi => (hg i hi).2⟩
  refine ⟨get_nextProc h hroom leftover name dir, rfl, hu.ok, rfl, fun l => ?_, (add_zero _).symm⟩
  rw [hu.get]
  exact (if_neg (by omega)).symm

theorem Kernel.Filled.blank (h : k.Filled this k.vfs.fdCounter 0 proc)
    (hthreads : proc.threads.Unused) :
    k.Blank this where
  noFds := by
    intro l
    have hn : k.descriptor (this, l) = none := by
      rw [Kernel.descriptor, h.get]
      exact (h.fds l).trans (if_neg (by omega))
    exact ⟨hn, getFd_none hn⟩
  noThreads := by
    intro l
    rw [Procs.listed, h.get]
    exact hthreads.get l
  accepts := by
    intro inodes hlen
    obtain ⟨houts, proc', h'⟩ := h.run inodes (by omega)
    refine ⟨by rw [houts, List.range_eq_range'], fun l hl => ?_⟩
    have hne : (l : Int) ≠ ID_INVALID := by
      rw [ID_INVALID]
      omega
    rw [getFd_eq _ _ hne, h'.get]
    change Option.getD (proc'.fds.get l) _ = _
    rw [h'.fds, if_pos (by omega)]
    rfl

theorem Kernel.Blank.cleared (h : (k.create leftover name dir).Blank k.nextProc)
    (hk : k.procs.IdsOk) (hroom : k.procs.procTable.size < HASHTABLE_CAPACITY) :
    leftover.Cleared := by
  have hget := get_nextProc hk hroom leftover name dir
  have hfds : ∀ l, (Procs.nproc leftover k.nextProc name dir).fds.get l = none := by
    intro l
    have hn := (h.noFds l).1
    rwa [Kernel.descriptor, hget] at hn
  have hthreads : ∀ l, (Procs.nproc leftover k.nextProc name dir).threads.get l = none := by
    intro l
    have hn := h.noThreads l
    rwa [Procs.listed, hget] at hn
  exact fun i hi => ⟨Hashtable.get_none_iff.1 hthreads i hi, Hashtable.get_none_iff.1 hfds i hi⟩

/-- A new process is the same over two contents of the stack exactly when both are clear where
the used flags go. -/
theorem create_independent_iff (tame : ∀ ref, (V ref).Tame)
    (hr : Reachable BootKernel (KernelStep V) k)
    (hroom : k.procs.procTable.size < HASHTABLE_CAPACITY) (name : Chars) (dir : Int)
    (g₁ g₂ : Proc) : k.Independent name dir g₁ g₂ ↔ g₁.Cleared ∧ g₂.Cleared := by
  have hk := (KernelOk.run tame hr).procs
  constructor
  · exact fun h => ⟨h.blank₁.cleared hk hroom, h.blank₂.cleared hk hroom⟩
  · rintro ⟨h₁, h₂⟩
    have hagree : (k.create g₁ name dir).Agree (k.create g₂ name dir) := by
      refine ⟨_, ⟨_, ?_, rfl⟩, rfl⟩
      exact (Hashtable.Agree.refl ProcAgree.refl k.procs.procTable).add _
        (nproc_agree h₁ h₂ k.nextProc name dir)
    have hblank : ∀ g : Proc, g.Cleared → (k.create g name dir).Blank k.nextProc :=
      fun g hg => (Kernel.Filled.create hk hroom hg name dir).blank ⟨rfl, fun i hi => (hg i hi).1⟩
    refine ⟨fun calls => ?_, hblank g₁ h₁, hblank g₂ h₂⟩
    exact runCalls_congr (fun _ _ c h => Kernel.Agree.procCall h k.nextProc c) hagree calls

/-- Stack contents with rubbish everywhere but in the used flags. -/
def Proc.rubbish : Proc where
  id := 7
  name := [0x78#8]
  dir := 3
  threadCounter := 9
  threads := ⟨fun _ => 5, fun _ => false, fun i => i, 12⟩
  lfdCounter := 4
  fds := ⟨fun _ => 6, fun _ => false, fun i => i, 40⟩

theorem create_independent_rubbish : Kernel.initial.Independent [0x61#8] 0 default .rubbish :=
  (create_independent_iff (vtables_tame 64) (.init initial_boot) (by decide) [0x61#8] 0 default
    .rubbish).2 ⟨fun _ _ => ⟨rfl, rfl⟩, fun _ _ => ⟨rfl, rfl⟩⟩

/-- Stack contents that hold a descriptor table with one descriptor. -/
def Proc.stale : Proc := { Proc.rubbish with fds := (Hashtable.zeroed.add 5 7).2 }

/-- Over such a stack the new process has a descriptor. -/
theorem create_not_independent :
    Reachable BootKernel (KernelStep (vtables 64)) Kernel.initial ∧
    (runCalls (Kernel.procCall 1) (Kernel.initial.create default [0x61#8] 0) [.getFd 5]).1 = [-1] ∧
    (runCalls (Kernel.procCall 1) (Kernel.initial.create .stale [0x61#8] 0) [.getFd 5]).1 = [7] ∧
    ¬ Kernel.initial.Independent [0x61#8] 0 default .stale := by
  have h₁ : (runCalls (Kernel.procCall 1) (Kernel.initial.create default [0x61#8] 0)
    [.getFd 5]).1 = [-1] := by decide
  have h₂ : (runCalls (Kernel.procCall 1) (Kernel.initial.create .stale [0x61#8] 0)
    [.getFd 5]).1 = [7] := by decide
  refine ⟨.init initial_boot, h₁, h₂, fun h => ?_⟩
  have hsame : [-1] = [(7 : Int)] := h₁.symm.trans ((h.same [.getFd 5]).trans h₂)
  exact absurd hsame (by decide)

end Tupai
