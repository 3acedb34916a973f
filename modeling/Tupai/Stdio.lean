import Tupai.Descriptors
import Tupai.Dispatch

namespace Tupai
open Lib
set_option autoImplicit true

/-- The conversion of a pointer or a `size_t` to an `id_t`. -/
def toId (n : Nat) : Int := (n : Int).bmod (2 ^ 64)

/-- The descriptor that a system call is given for a stream. -/
def streamFd (w stream : Nat) : Int := toId (toSize w (toId stream - 1))

namespace Kernel

variable (V : Vtables δ)

/-- The OPEN system call; the result is what it stores in `*rdesc`. -/
def syscallOpen (k : Kernel δ) (path : Chars) : Int × Kernel δ :=
  let inode := k.vfs.getInode path
  if inode = ID_INVALID then (0, k) else k.fdOpen V inode

/-- A `FILE*` is a pointer of width `w`, and 0 is `NULL`. -/
def fopen (w : Nat) (k : Kernel δ) (filename : Chars) : Nat × Kernel δ :=
  let (fd, k) := k.syscallOpen V filename
  if fd = -1 then (0, k) else (toSize w (fd + 1), k)

def fclose (w : Nat) (k : Kernel δ) (stream : Nat) : Int × Kernel δ :=
  (0, (k.fdClose V (streamFd w stream)).2)

/-- The inode has an open callback, and it agrees. -/
def Accepts (k : Kernel δ) (inode : Int) : Prop :=
  ∃ ref call, (k.vfs.getVtable inode).2 = some ref ∧ (V ref).openCall = some call ∧
    (call inode k).1 = 0

/-- The path does not resolve, or to an inode that cannot be opened. -/
def Refused (k : Kernel δ) (path : Chars) : Prop :=
  k.vfs.getInode path = ID_INVALID ∨ ¬ k.Accepts V (k.vfs.getInode path)

/-- `fopen` reports failure truthfully. -/
structure OpenTruthful (w : Nat) (k : Kernel δ) (path : Chars) : Prop where
  null : (k.fopen V w path).1 = 0 ↔ k.Refused V path
  stream : ¬ k.Refused V path → ∃ lfd g : Int, ((k.fopen V w path).1 : Int) = lfd + 1 ∧
    k.descriptor (k.procs.cproc, lfd) = none ∧
    (k.fopen V w path).2.descriptor (k.procs.cproc, lfd) = some g ∧
    k.vfs.fdTable.get g = none ∧
    ∃ fd, (k.fopen V w path).2.vfs.fdTable.get g = some fd ∧ fd.inode = k.vfs.getInode path
  failing : k.Refused V path → (k.fopen V w path).1 ≠ 0 →
    k.procs.getFd k.procs.cproc (streamFd w (k.fopen V w path).1) = ID_INVALID

end Kernel

/-- The calls on the VFS and on processes. The other VFS calls leave the descriptors alone. -/
inductive KernelStep (V : Vtables δ) : Kernel δ → Kernel δ → Prop where
  | vfs (k : Kernel δ) (v : Vfs) : v.fdTable = k.vfs.fdTable → v.fdCounter = k.vfs.fdCounter →
      KernelStep V k { k with vfs := v }
  | procs (k : Kernel δ) (c : ThreadCall) : k.procs.call c = some s →
      KernelStep V k { k with procs := s }
  | setCurrent (k : Kernel δ) (p : Int) :
      KernelStep V k { k with procs := k.procs.setCurrent p }
  | fdCall (k : Kernel δ) (c : FdCall) : KernelStep V k (k.fdCall V c).2
  | fopen (k : Kernel δ) (w : Nat) (path : Chars) : KernelStep V k (k.fopen V w path).2
  | fclose (k : Kernel δ) (w stream : Nat) : KernelStep V k (k.fclose V w stream).2

def BootKernel (k : Kernel δ) : Prop := k.vfs = .boot ∧ k.procs = .boot

/-- Process ids and local ids are handed out in order. -/
structure Procs.IdsOk (s : Procs) : Prop where
  procOk : s.procTable.Ok
  procKeys : ∀ p, s.procTable.get p ≠ none → p ≤ s.procCounter
  lfds : s.procTable.All fun proc => 0 ≤ proc.lfdCounter

/-- What every reachable state keeps. -/
structure KernelOk (k : Kernel δ) : Prop where
  fdOk : k.vfs.fdTable.Ok
  fdKeys : ∀ g, k.vfs.fdTable.get g ≠ none → g < k.vfs.fdCounter
  procs : k.procs.IdsOk

variable {k k' : Kernel δ} {V : Vtables δ}

theorem KernelOk.fresh (h : KernelOk k) : k.vfs.fdTable.get k.vfs.fdCounter = none :=
  Hashtable.fresh_of_lt h.fdKeys

namespace Procs

variable {s : Procs}

theorem IdsOk.boot : boot.IdsOk where
  procOk := Hashtable.zeroed_unused.ok
  procKeys := fun p hp => absurd (Hashtable.zeroed_unused.get p) hp
  lfds := Hashtable.zeroed_unused.all

theorem IdsOk.fresh (h : s.IdsOk) : s.procTable.get (s.procCounter + 1) = none :=
  Hashtable.fresh_of_lt fun p hp => Int.lt_add_one_iff.2 (h.procKeys p hp)

theorem IdsOk.modifyProc (h : s.IdsOk) (p : Int) {f : Proc → Proc}
    (hf : ∀ proc, 0 ≤ proc.lfdCounter → 0 ≤ (f proc).lfdCounter) : (s.modifyProc p f).IdsOk where
  procOk := h.procOk.modify p f
  procKeys := fun q hq => h.procKeys q ((live_modifyProc s p f q).1 hq)
  lfds := h.lfds.modify hf

theorem IdsOk.create (h : s.IdsOk) (leftover : Proc) (name : Chars) (dir : Int) :
    (s.create leftover name dir).2.IdsOk where
  procOk := h.procOk.add h.fresh _
  procKeys := by
    intro p hp
    change p ≤ s.procCounter + 1
    rcases Hashtable.mem_add hp with rfl | hp
    · exact le_refl _
    · have := h.procKeys p hp
      omega
  lfds := h.lfds.add (le_refl 0)

theorem IdsOk.spawnThread (h : s.IdsOk) (this : Int) (entry nstack : Nat) :
    (s.spawnThread this entry nstack).2.IdsOk := by
  cases hp : s.procTable.get this with
  | none =>
    rw [spawnThread_none hp]
    exact h
  | some proc =>
    rw [spawnThread_some hp]
    have h₁ :
        (s.modifyProc this fun p => { p with threadCounter := proc.threadCounter + 1 }).IdsOk :=
      h.modifyProc this fun _ hl => hl
    have h₂ : (s.enrol this proc entry nstack).IdsOk := by
      apply IdsOk.modifyProc
      · exact ⟨h₁.procOk, h₁.procKeys, h₁.lfds⟩
      · exact fun _ hl => hl
    exact ⟨h₂.procOk, h₂.procKeys, h₂.lfds⟩

theorem IdsOk.deleteThread (h : s.IdsOk) (this thread : Int) :
    (s.deleteThread this thread).2.IdsOk := by
  cases hp : s.procTable.get this with
  | none =>
    rw [deleteThread_none hp]
    exact h
  | some proc =>
    rw [deleteThread_some hp]
    have h₁ := h.modifyProc this (f := fun p =>
      { p with threads := (p.threads.remove (s.getLid thread)).2 }) fun _ hl => hl
    exact ⟨h₁.procOk, h₁.procKeys, h₁.lfds⟩

theorem IdsOk.deleteFd (h : s.IdsOk) (this lfd : Int) : (s.deleteFd this lfd).2.IdsOk := by
  rw [Procs.deleteFd]
  cases s.procTable.get this with
  | none => exact h
  | some proc => exact h.modifyProc this fun _ hl => hl

theorem IdsOk.retireTask (h : s.IdsOk) : s.retireTask.IdsOk := by
  rw [Procs.retireTask]
  split_ifs
  · exact h.deleteThread _ _
  · exact ⟨h.procOk, h.procKeys, h.lfds⟩
  · exact h

theorem IdsOk.saveStack (h : s.IdsOk) (oldStack : Nat) : (s.saveStack oldStack).IdsOk := by
  rw [Procs.saveStack]
  split_ifs
  · exact ⟨h.procOk, h.procKeys, h.lfds⟩
  · exact h

theorem IdsOk.schedulerPreempt (h : s.IdsOk)
    (hp : s.schedulerPreempt fuel oldStack = some (d, s')) : s'.IdsOk := by
  obtain ⟨s₁, hi, hs⟩ := schedulerPreempt_some hp
  have h₁ : s₁.IdsOk := by
    have hr := (h.saveStack oldStack).retireTask
    rw [schedulerIncrement] at hi
    cases hsel : selectTask fuel (s.saveStack oldStack).retireTask.schedule with
    | none => rw [hsel] at hi; cases hi
    | some r =>
      rw [hsel] at hi
      cases hi
      exact ⟨hr.procOk, hr.procKeys, hr.lfds⟩
  rcases hs with rfl | ⟨_, rfl⟩
  · exact h₁
  · exact ⟨h₁.procOk, h₁.procKeys, h₁.lfds⟩

theorem IdsOk.call (h : s.IdsOk) (c : ThreadCall) (hc : s.call c = some s') : s'.IdsOk := by
  cases c with
  | create leftover name dir =>
    cases hc
    exact h.create leftover name dir
  | spawnThread this entry nstack =>
    cases hc
    exact h.spawnThread this entry nstack
  | kill thread =>
    cases hc
    exact ⟨h.procOk, h.procKeys, h.lfds⟩
  | schedulerPreempt fuel oldStack =>
    obtain ⟨⟨d, s₂⟩, hp, rfl⟩ := Option.map_eq_some_iff.1 hc
    exact h.schedulerPreempt hp

end Procs

theorem KernelOk.quiet (h : KernelOk k) (hq : Quiet fd k k') : KernelOk k' where
  fdOk := hq.ok h.fdOk
  fdKeys := by
    intro g hg
    rw [hq.fdCounter]
    exact h.fdKeys g (mt (hq.get_none g).2 hg)
  procs := by
    rw [hq.procs]
    exact h.procs

theorem KernelOk.createFd (h : KernelOk k) (this inode : Int) :
    KernelOk (k.createFd this inode).2 := by
  cases hp : k.procs.procTable.get this with
  | none =>
    rw [Kernel.createFd, hp]
    exact h
  | some proc =>
    have hpos : 0 ≤ proc.lfdCounter := h.procs.lfds.get hp
    rw [createFd_some hp]
    refine ⟨h.fdOk.add h.fresh _, fun g hg => ?_, ?_⟩
    · change g < k.vfs.fdCounter + 1
      rcases Hashtable.mem_add hg with rfl | hg
      · omega
      · have := h.fdKeys g hg
        omega
    · dsimp only
      apply Procs.IdsOk.modifyProc
      · refine h.procs.modifyProc this fun q _ => ?_
        dsimp only
        omega
      · exact fun _ hl => hl

theorem KernelOk.fdCall (h : KernelOk k) (tame : ∀ ref, (V ref).Tame) (c : FdCall) :
    KernelOk (k.fdCall V c).2 := by
  cases c with
  | fdOpen inode =>
    rw [Kernel.fdCall]
    rcases fdOpen_cases tame k inode with ⟨_, hq⟩ | ⟨k₁, hq, he⟩
    · exact h.quiet hq
    · rw [he]
      exact (h.quiet hq).createFd _ inode
  | fdClose lfd =>
    rw [Kernel.fdCall]
    rcases fdClose_cases tame k lfd with ⟨_, hq⟩ | ⟨k₁, hq, _, he⟩
    · exact h.quiet hq
    · have h₁ := h.quiet hq
      rw [he]
      exact ⟨h₁.fdOk.remove _, fun g hg => h₁.fdKeys g (Hashtable.mem_remove hg),
        h₁.procs.deleteFd _ lfd⟩
  | fdRead lfd rbuff n => exact h.quiet (fdRead_quiet tame k lfd rbuff n)
  | fdWrite lfd buff n => exact h.quiet (fdWrite_quiet tame k lfd buff n)

theorem fopen_snd (V : Vtables δ) (w : Nat) (k : Kernel δ) (path : Chars) :
    (k.fopen V w path).2 = (k.syscallOpen V path).2 := by
  change (if (k.syscallOpen V path).1 = -1 then (0, (k.syscallOpen V path).2) else _).2 = _
  split_ifs <;> rfl

theorem KernelOk.step (h : KernelOk k) (tame : ∀ ref, (V ref).Tame) (ht : KernelStep V k k') :
    KernelOk k' := by
  cases ht with
  | vfs _ v ht hc =>
    refine ⟨?_, fun g hg => ?_, h.procs⟩
    · change v.fdTable.Ok
      rw [ht]
      exact h.fdOk
    · change v.fdTable.get g ≠ none at hg
      change g < v.fdCounter
      rw [hc]
      rw [ht] at hg
      exact h.fdKeys g hg
  | procs _ c hc => exact ⟨h.fdOk, h.fdKeys, h.procs.call c hc⟩
  | setCurrent _ p =>
    exact ⟨h.fdOk, h.fdKeys, h.procs.procOk, h.procs.procKeys, h.procs.lfds⟩
  | fdCall _ c => exact h.fdCall tame c
  | fopen _ w path =>
    rw [fopen_snd, Kernel.syscallOpen]
    split_ifs
    · exact h
    · exact h.fdCall tame (.fdOpen _)
  | fclose _ w stream => exact h.fdCall tame (.fdClose _)

theorem KernelOk.run (tame : ∀ ref, (V ref).Tame) (hr : Reachable BootKernel (KernelStep V) k) :
    KernelOk k := by
  apply hr.invariant
  · rintro k ⟨hv, hp⟩
    refine ⟨?_, fun g hg => ?_, ?_⟩
    · rw [hv]
      exact Hashtable.zeroed_unused.ok
    · rw [hv] at hg
      exact absurd (Hashtable.zeroed_unused.get g) hg
    · rw [hp]
      exact .boot
  · exact fun _ _ h ht => h.step tame ht

theorem fdOpen_refused_keeps {P : Kernel δ → Prop} (h : ¬ k.Accepts V inode) (hk : P k)
    (hcall : ∀ ref call, (V ref).openCall = some call → P (call inode k).2) :
    (k.fdOpen V inode).1 = ID_INVALID ∧ P (k.fdOpen V inode).2 := by
  cases hv : (k.vfs.getVtable inode).2 with
  | none =>
    rw [Kernel.fdOpen, hv]
    exact ⟨rfl, hk⟩
  | some ref =>
    cases ho : (V ref).openCall with
    | none =>
      simp only [Kernel.fdOpen, hv, ho]
      exact ⟨trivial, hk⟩
    | some call =>
      have hr : (call inode k).1 ≠ 0 := fun h0 => h ⟨ref, call, hv, ho, h0⟩
      simp only [Kernel.fdOpen, hv, ho]
      rw [if_neg hr]
      exact ⟨rfl, hcall ref call ho⟩

theorem fdOpen_refused (h : ¬ k.Accepts V inode) : (k.fdOpen V inode).1 = ID_INVALID :=
  (fdOpen_refused_keeps (P := fun _ => True) h trivial fun _ _ _ => trivial).1

theorem fdOpen_accepted (tame : ∀ ref, (V ref).Tame) (h : k.Accepts V inode) :
    ∃ k₁, Quiet ID_INVALID k k₁ ∧ k.fdOpen V inode = k₁.createFd k.procs.cproc inode := by
  obtain ⟨ref, call, hv, ho, hr⟩ := h
  have hq := (tame ref).openCall call ho inode k
  refine ⟨_, hq, ?_⟩
  simp only [Kernel.fdOpen, hv, ho]
  rw [if_pos hr, Procs.getCurrent, hq.procs]

theorem fopen_fst (V : Vtables δ) (w : Nat) (k : Kernel δ) (path : Chars) :
    (k.fopen V w path).1 =
      if (k.syscallOpen V path).1 = -1 then 0 else toSize w ((k.syscallOpen V path).1 + 1) := by
  change (if (k.syscallOpen V path).1 = -1 then (0, (k.syscallOpen V path).2) else _).1 = _
  split_ifs <;> rfl

/-- A path that does not resolve gives the stream of descriptor 0. -/
theorem fopen_unresolved (V : Vtables δ) (hw : 0 < w) (h : k.vfs.getInode path = ID_INVALID) :
    (k.fopen V w path).1 = 1 := by
  have hs : k.syscallOpen V path = (0, k) := by
    rw [Kernel.syscallOpen, h]
    exact if_pos rfl
  rw [fopen_fst, hs]
  exact toSize_of_lt (Nat.one_lt_two_pow (Nat.ne_of_gt hw))

theorem syscallOpen_resolved (V : Vtables δ) (h : k.vfs.getInode path ≠ ID_INVALID) :
    k.syscallOpen V path = k.fdOpen V (k.vfs.getInode path) := if_neg h

theorem createFd_descriptor_other (hp : k.procs.procTable.get this = some proc) (inode : Int)
    (hname : name ≠ (this, proc.lfdCounter)) :
    (k.createFd this inode).2.descriptor name = k.descriptor name := by
  obtain ⟨p, l⟩ := name
  rw [Kernel.descriptor, createFd_procTable hp, Kernel.descriptor]
  by_cases hpe : p = this
  · have hl : l ≠ proc.lfdCounter := fun he => hname (by rw [hpe, he])
    simp only [hpe, hp, ↓reduceIte, Option.bind_some]
    exact Hashtable.get_add_other _ _ hl
  · simp only [hpe, ↓reduceIte]

/-- The inode can be opened only if the next local descriptor is unused and has a stream. -/
def Kernel.OpenSafe (V : Vtables δ) (w : Nat) (k : Kernel δ) (proc : Proc) (path : Chars) : Prop :=
  k.vfs.getInode path ≠ ID_INVALID ∧
    (k.Accepts V (k.vfs.getInode path) →
      proc.fds.get proc.lfdCounter = none ∧ proc.lfdCounter + 1 < 2 ^ w)

variable {proc : Proc}

theorem Kernel.OpenTruthful.safe (h : k.OpenTruthful V w path) (tame : ∀ ref, (V ref).Tame)
    (hk : KernelOk k) (hp : k.procs.procTable.get k.procs.cproc = some proc) (hw : 0 < w) :
    k.OpenSafe V w proc path := by
  have hresolved : k.vfs.getInode path ≠ ID_INVALID := by
    intro hi
    have hnull := h.null.2 (.inl hi)
    rw [fopen_unresolved V hw hi] at hnull
    cases hnull
  refine ⟨hresolved, fun hacc => ?_⟩
  obtain ⟨k₁, hq, he⟩ := fdOpen_accepted tame hacc
  have hp₁ : k₁.procs.procTable.get k.procs.cproc = some proc := by
    rw [hq.procs]
    exact hp
  obtain ⟨lfd, g, hptr, hbefore, hafter, _⟩ := h.stream fun hr => hr.elim hresolved (absurd hacc)
  rw [fopen_snd, syscallOpen_resolved V hresolved, he] at hafter
  have hlfd : lfd = proc.lfdCounter := by
    by_contra hne
    rw [createFd_descriptor_other hp₁ _ (fun hn => hne (congrArg Prod.snd hn)), hq.descriptor,
      hbefore] at hafter
    cases hafter
  subst hlfd
  refine ⟨?_, ?_⟩
  · rw [Kernel.descriptor, hp] at hbefore
    exact hbefore
  · have hpos := hk.procs.lfds.get hp
    rw [fopen_fst, syscallOpen_resolved V hresolved, he, createFd_some hp₁,
      if_neg (by omega)] at hptr
    rw [← hptr]
    have hlt : toSize w (proc.lfdCounter + 1) < 2 ^ w := toSize_lt w _
    exact_mod_cast hlt

theorem Kernel.OpenSafe.truthful (h : k.OpenSafe V w proc path) (tame : ∀ ref, (V ref).Tame)
    (hk : KernelOk k) (hp : k.procs.procTable.get k.procs.cproc = some proc)
    (hfd : k.vfs.fdTable.size < HASHTABLE_CAPACITY)
    (hfds : proc.fds.freeSlot proc.lfdCounter ≠ none) : k.OpenTruthful V w path := by
  obtain ⟨hresolved, hopen⟩ := h
  have hsys := syscallOpen_resolved V hresolved
  by_cases hacc : k.Accepts V (k.vfs.getInode path)
  · obtain ⟨hnew, hlt⟩ := hopen hacc
    obtain ⟨k₁, hq, he⟩ := fdOpen_accepted tame hacc
    have hk₁ := hk.quiet hq
    have hp₁ : k₁.procs.procTable.get k.procs.cproc = some proc := by
      rw [hq.procs]
      exact hp
    obtain ⟨hret, hc, _⟩ := createFd_spec hp₁ hk₁.fdOk hk₁.fresh (hq.size ▸ hfd) hnew hfds
      (k.vfs.getInode path)
    have hpos := hk.procs.lfds.get hp
    have hptr : ((k.fopen V w path).1 : Int) = proc.lfdCounter + 1 := by
      rw [fopen_fst, hsys, he, hret, if_neg (by omega)]
      exact toSize_of_nonneg (by omega) hlt
    have haccepted : ¬ k.Refused V path := fun hr => hr.elim hresolved (absurd hacc)
    refine ⟨iff_of_false (by omega) haccepted, fun _ => ?_, fun hr => absurd hr haccepted⟩
    refine ⟨proc.lfdCounter, k₁.vfs.fdCounter, hptr, ?_, ?_, ?_, ?_⟩
    · rw [Kernel.descriptor, hp]
      exact hnew
    · rw [fopen_snd, hsys, he, hc.descriptor, if_pos rfl]
    · exact (hq.get_none _).1 hc.fresh
    · rw [fopen_snd, hsys, he, hc.fdTable, if_pos rfl]
      exact ⟨_, rfl, rfl⟩
  · have hptr : (k.fopen V w path).1 = 0 := by
      rw [fopen_fst, hsys, fdOpen_refused hacc]
      exact if_pos rfl
    exact ⟨iff_of_true hptr (.inr hacc), fun hr => absurd (.inr hacc) hr,
      fun _ hne => absurd hptr hne⟩

/-- `fopen` is truthful exactly when the path resolves, and to nothing that needs a stream which
the process cannot have. -/
theorem openTruthful_iff (tame : ∀ ref, (V ref).Tame)
    (hr : Reachable BootKernel (KernelStep V) k)
    (hp : k.procs.procTable.get k.procs.cproc = some proc)
    (hfd : k.vfs.fdTable.size < HASHTABLE_CAPACITY)
    (hfds : proc.fds.freeSlot proc.lfdCounter ≠ none) (hw : 0 < w) (path : Chars) :
    k.OpenTruthful V w path ↔ k.OpenSafe V w proc path := by
  have hk := KernelOk.run tame hr
  constructor
  · exact fun h => h.safe tame hk hp hw
  · exact fun h => h.truthful tame hk hp hfd hfds

def Kernel.initial : Kernel Devices := ⟨.boot, .boot, fun _ => 0#8, ⟨.zeroed⟩⟩

theorem initial_boot : BootKernel Kernel.initial := ⟨rfl, rfl⟩

/-- One process, and a mounted filesystem with one initrd file named `a`. -/
def Kernel.mountedFile : Kernel Devices where
  vfs :=
    let (root, v) := Vfs.boot.createInode .DIRECTORY
    let (file, v) := v.createInode .NORMAL_FILE
    let v := (v.mountChild root file [0x61#8]).2
    let v := (v.setVtable file (some .initrdVtable)).2
    (v.setRoot root).2
  procs := (Procs.boot.create default [] 0).2.setCurrent 1
  mem := Kernel.initial.mem
  dev := Kernel.initial.dev

theorem mountedFile_reachable :
    Reachable BootKernel (KernelStep (vtables 64)) Kernel.mountedFile := by
  have hvfs := (Reachable.init initial_boot).step
    (KernelStep.vfs (V := vtables 64) _ Kernel.mountedFile.vfs rfl rfl)
  exact (hvfs.step (.procs _ (.create default [] 0) rfl)).step (.setCurrent _ 1)

theorem openTruthful_mountedFile :
    Kernel.mountedFile.OpenTruthful (vtables 64) 64 [0x61#8] :=
  (openTruthful_iff (vtables_tame 64) mountedFile_reachable rfl (by decide) (by decide)
    (by decide) [0x61#8]).2 ⟨by decide, fun _ => ⟨by decide, by decide⟩⟩

def Kernel.openedFile : Kernel Devices := (Kernel.mountedFile.fopen (vtables 64) 64 [0x61#8]).2

/-- Opening a missing file gives the open file's stream. -/
theorem fopen_not_truthful :
    Reachable BootKernel (KernelStep (vtables 64)) Kernel.openedFile ∧
    Kernel.openedFile.vfs.fdTable.size = 1 ∧
    (Kernel.openedFile.procs.procTable.get 1).map (·.fds.size) = some 1 ∧
    Kernel.openedFile.vfs.getInode [0x62#8] = ID_INVALID ∧
    (Kernel.openedFile.fopen (vtables 64) 64 [0x62#8]).1 = 1 ∧
    Kernel.openedFile.procs.getFd 1 (streamFd 64 1) = 0 ∧
    ¬ Kernel.openedFile.OpenTruthful (vtables 64) 64 [0x62#8] := by
  have hinode : Kernel.openedFile.vfs.getInode [0x62#8] = ID_INVALID := by decide +kernel
  have hptr : (Kernel.openedFile.fopen (vtables 64) 64 [0x62#8]).1 = 1 :=
    fopen_unresolved _ (by decide) hinode
  refine ⟨mountedFile_reachable.step (.fopen _ 64 _), by decide +kernel, by decide +kernel, hinode,
    hptr, by decide +kernel, fun h => ?_⟩
  have hnull := h.null.2 (.inl hinode)
  rw [hptr] at hnull
  cases hnull

end Tupai
