import Tupai.Drivers
import Tupai.Lib.Linkage
import Tupai.Lib.Transition

namespace Tupai
open Lib
set_option autoImplicit true

/-- The global descriptor that a process's table gives for a local one. -/
def Kernel.descriptor (k : Kernel δ) (name : Int × Int) : Option Int :=
  (k.procs.procTable.get name.1).bind (·.fds.get name.2)

variable {k k' : Kernel δ}

theorem Quiet.descriptor (h : Quiet fd k k') : k'.descriptor = k.descriptor := by
  funext name
  rw [Kernel.descriptor, h.procs]
  rfl

theorem Quiet.get_other (h : Quiet fd k k') (hg : g ≠ fd) :
    k'.vfs.fdTable.get g = k.vfs.fdTable.get g := by
  obtain ⟨f, _, he⟩ := h.fdTable
  rw [he, Hashtable.get_modify, if_neg hg]

theorem Quiet.inode (h : Quiet fd k k') (g : Int) :
    (k'.vfs.fdTable.get g).map Fd.inode = (k.vfs.fdTable.get g).map Fd.inode := by
  obtain ⟨f, hf, he⟩ := h.fdTable
  rw [he, Hashtable.get_modify]
  split_ifs
  · rw [Option.map_map, show Fd.inode ∘ f = Fd.inode from funext hf]
  · rfl

theorem Quiet.get_none (h : Quiet fd k k') (g : Int) :
    k'.vfs.fdTable.get g = none ↔ k.vfs.fdTable.get g = none := by
  rw [← Option.map_eq_none_iff (f := Fd.inode), h.inode, Option.map_eq_none_iff]

theorem Quiet.ok (h : Quiet fd k k') (ok : k.vfs.fdTable.Ok) : k'.vfs.fdTable.Ok := by
  obtain ⟨f, _, he⟩ := h.fdTable
  rw [he]
  exact ok.modify fd f

theorem Quiet.size (h : Quiet fd k k') : k'.vfs.fdTable.size = k.vfs.fdTable.size := by
  obtain ⟨f, _, he⟩ := h.fdTable
  rw [he, Hashtable.size_modify]

theorem getFd_eq (s : Procs) (p : Int) (hl : l ≠ ID_INVALID) :
    s.getFd p l = ((s.procTable.get p).bind (·.fds.get l)).getD ID_INVALID := by
  rw [Procs.getFd]
  cases s.procTable.get p with
  | none => rfl
  | some proc => exact if_pos hl

theorem getFd_invalid (s : Procs) (p : Int) : s.getFd p ID_INVALID = ID_INVALID := by
  rw [Procs.getFd]
  cases s.procTable.get p with
  | none => rfl
  | some proc => exact if_neg (not_not.2 rfl)

variable {V : Vtables δ}

variable {P : Kernel δ → Prop}

/-- `fd_open` calls one callback, and creates a descriptor if it agreed. -/
theorem fdOpen_keeps (hk : P k) (hcall : ∀ ref call, (V ref).openCall = some call →
    ∀ inode, P (call inode k).2) (inode : Int) :
    ((k.fdOpen V inode).1 = ID_INVALID ∧ P (k.fdOpen V inode).2) ∨
    ∃ k₁, P k₁ ∧ k.fdOpen V inode = k₁.createFd k₁.procs.cproc inode := by
  cases hv : (k.vfs.getVtable inode).2 with
  | none =>
    rw [Kernel.fdOpen, hv]
    exact .inl ⟨rfl, hk⟩
  | some ref =>
    cases ho : (V ref).openCall with
    | none =>
      simp only [Kernel.fdOpen, hv, ho]
      exact .inl ⟨trivial, hk⟩
    | some call =>
      have hq := hcall ref call ho inode
      simp only [Kernel.fdOpen, hv, ho]
      by_cases hr : (call inode k).1 = 0
      · rw [if_pos hr]
        exact .inr ⟨_, hq, rfl⟩
      · rw [if_neg hr]
        exact .inl ⟨rfl, hq⟩

theorem fdOpen_cases (tame : ∀ ref, (V ref).Tame) (k : Kernel δ) (inode : Int) :
    ((k.fdOpen V inode).1 = ID_INVALID ∧ Quiet ID_INVALID k (k.fdOpen V inode).2) ∨
    ∃ k₁, Quiet ID_INVALID k k₁ ∧ k.fdOpen V inode = k₁.createFd k₁.procs.cproc inode :=
  fdOpen_keeps (.refl _ k) (fun ref call ho inode => (tame ref).openCall call ho inode k) inode

/-- The vtable that a call on a local id of the current process gets to. -/
def Kernel.vtableOf (k : Kernel δ) (lfd : Int) : Option VtableRef :=
  if k.procs.cproc = ID_INVALID then none
  else (k.vfs.getVtable (k.vfs.fdGetInode (k.procs.getFd k.procs.cproc lfd))).2

theorem fdCall_unopened (V : Vtables δ) (h : k.vtableOf lfd = none) :
    k.fdClose V lfd = (1, k) ∧ (∀ rbuff n, (k.fdRead V lfd rbuff n).2 = k) ∧
      ∀ buff n, (k.fdWrite V lfd buff n).2 = k := by
  by_cases hc : k.procs.cproc = ID_INVALID
  · simp [Kernel.fdClose, Kernel.fdRead, Kernel.fdWrite, Procs.getCurrent, hc]
  · rw [Kernel.vtableOf, if_neg hc] at h
    simp [Kernel.fdClose, Kernel.fdRead, Kernel.fdWrite, Procs.getCurrent, hc, h]

theorem vtableOf_some (h : k.vtableOf lfd = some ref) : k.procs.cproc ≠ ID_INVALID ∧
    (k.vfs.getVtable (k.vfs.fdGetInode (k.procs.getFd k.procs.cproc lfd))).2 = some ref := by
  rw [Kernel.vtableOf] at h
  split_ifs at h with hc
  exact ⟨hc, h⟩

theorem fdClose_keeps (hk : P k) (hcall : ∀ ref call, (V ref).closeCall = some call →
    ∀ fd, fd = k.procs.getFd k.procs.cproc lfd → P (call fd k).2) :
    ((k.fdClose V lfd).1 = 1 ∧ P (k.fdClose V lfd).2) ∨
    ∃ k₁, P k₁ ∧ k.vtableOf lfd ≠ none ∧
      k.fdClose V lfd = (0, { k₁ with
        vfs := (k₁.vfs.deleteFd (k.procs.getFd k.procs.cproc lfd)).2
        procs := (k₁.procs.deleteFd k.procs.cproc lfd).2 }) := by
  cases hv : k.vtableOf lfd with
  | none =>
    rw [(fdCall_unopened V hv).1]
    exact .inl ⟨rfl, hk⟩
  | some ref =>
    obtain ⟨hc, hv⟩ := vtableOf_some hv
    cases ho : (V ref).closeCall with
    | none =>
      simp only [Kernel.fdClose, Procs.getCurrent, hc, hv, ho, ↓reduceIte]
      exact .inl ⟨trivial, hk⟩
    | some call =>
      have hq := hcall ref call ho _ rfl
      have he : k.fdClose V lfd =
          if (call (k.procs.getFd k.procs.cproc lfd) k).1 ≠ 0 then
            (1, (call (k.procs.getFd k.procs.cproc lfd) k).2)
          else (0, { (call (k.procs.getFd k.procs.cproc lfd) k).2 with
            vfs := ((call (k.procs.getFd k.procs.cproc lfd) k).2.vfs.deleteFd
              (k.procs.getFd k.procs.cproc lfd)).2
            procs := ((call (k.procs.getFd k.procs.cproc lfd) k).2.procs.deleteFd
              k.procs.cproc lfd).2 }) := by
        simp only [Kernel.fdClose, Procs.getCurrent, hc, hv, ho, ↓reduceIte]
        rfl
      rw [he]
      by_cases hr : (call (k.procs.getFd k.procs.cproc lfd) k).1 ≠ 0
      · rw [if_pos hr]
        exact .inl ⟨rfl, hq⟩
      · rw [if_neg hr]
        exact .inr ⟨_, hq, Option.some_ne_none ref, rfl⟩

theorem fdClose_cases (tame : ∀ ref, (V ref).Tame) (k : Kernel δ) (lfd : Int) :
    ((k.fdClose V lfd).1 = 1 ∧ Quiet (k.procs.getFd k.procs.cproc lfd) k (k.fdClose V lfd).2) ∨
    ∃ k₁, Quiet (k.procs.getFd k.procs.cproc lfd) k k₁ ∧ k.vtableOf lfd ≠ none ∧
      k.fdClose V lfd = (0, { k₁ with
        vfs := (k₁.vfs.deleteFd (k.procs.getFd k.procs.cproc lfd)).2
        procs := (k₁.procs.deleteFd k.procs.cproc lfd).2 }) := by
  apply fdClose_keeps (.refl _ k)
  rintro ref call ho _ rfl
  exact (tame ref).closeCall call ho _ k

theorem fdRead_keeps (hk : P k) (hcall : ∀ ref call, (V ref).readCall = some call →
    ∀ fd, fd = k.procs.getFd k.procs.cproc lfd → P (call fd rbuff n k).2) :
    P (k.fdRead V lfd rbuff n).2 := by
  cases hv : k.vtableOf lfd with
  | none =>
    rw [(fdCall_unopened V hv).2.1]
    exact hk
  | some ref =>
    obtain ⟨hc, hv⟩ := vtableOf_some hv
    cases ho : (V ref).readCall with
    | none =>
      simp only [Kernel.fdRead, Procs.getCurrent, hc, hv, ho, ↓reduceIte]
      exact hk
    | some call =>
      simp only [Kernel.fdRead, Procs.getCurrent, hc, hv, ho, ↓reduceIte]
      exact hcall ref call ho _ rfl

theorem fdRead_quiet (tame : ∀ ref, (V ref).Tame) (k : Kernel δ) (lfd : Int) (rbuff n : Nat) :
    Quiet (k.procs.getFd k.procs.cproc lfd) k (k.fdRead V lfd rbuff n).2 := by
  apply fdRead_keeps (.refl _ k)
  rintro ref call ho _ rfl
  exact (tame ref).readCall call ho _ rbuff n k

theorem fdWrite_keeps (hk : P k) (hcall : ∀ ref call, (V ref).writeCall = some call →
    ∀ fd, fd = k.procs.getFd k.procs.cproc lfd → P (call fd buff n k).2) :
    P (k.fdWrite V lfd buff n).2 := by
  cases hv : k.vtableOf lfd with
  | none =>
    rw [(fdCall_unopened V hv).2.2]
    exact hk
  | some ref =>
    obtain ⟨hc, hv⟩ := vtableOf_some hv
    cases ho : (V ref).writeCall with
    | none =>
      simp only [Kernel.fdWrite, Procs.getCurrent, hc, hv, ho, ↓reduceIte]
      exact hk
    | some call =>
      simp only [Kernel.fdWrite, Procs.getCurrent, hc, hv, ho, ↓reduceIte]
      exact hcall ref call ho _ rfl

theorem fdWrite_quiet (tame : ∀ ref, (V ref).Tame) (k : Kernel δ) (lfd : Int) (buff n : Nat) :
    Quiet (k.procs.getFd k.procs.cproc lfd) k (k.fdWrite V lfd buff n).2 := by
  apply fdWrite_keeps (.refl _ k)
  rintro ref call ho _ rfl
  exact (tame ref).writeCall call ho _ buff n k

/-- What `proc_ptr_t::create_fd` does to an existing process when both tables have room. -/
structure CreatedFd (k k' : Kernel δ) (this lfd inode : Int) : Prop where
  fresh : k.vfs.fdTable.get k.vfs.fdCounter = none
  fdOk : k'.vfs.fdTable.Ok
  fdCounter : k'.vfs.fdCounter = k.vfs.fdCounter + 1
  fdTable : ∀ g, k'.vfs.fdTable.get g =
    if g = k.vfs.fdCounter then some ⟨k.vfs.fdCounter, inode, 0⟩ else k.vfs.fdTable.get g
  inodeTable : k'.vfs.inodeTable = k.vfs.inodeTable
  descriptor : ∀ name, k'.descriptor name =
    if name = (this, lfd) then some k.vfs.fdCounter else k.descriptor name
  cproc : k'.procs.cproc = k.procs.cproc

theorem createFd_some (hp : k.procs.procTable.get this = some proc) (inode : Int) :
    k.createFd this inode = (proc.lfdCounter, { k with
      vfs := (k.vfs.createFd inode).2
      procs := (k.procs.modifyProc this fun p =>
        { p with lfdCounter := proc.lfdCounter + 1 }).modifyProc this fun p =>
        { p with fds := (p.fds.add proc.lfdCounter k.vfs.fdCounter).2 } }) := by
  rw [Kernel.createFd, hp]
  rfl

theorem createFd_procTable (hp : k.procs.procTable.get this = some proc) (inode p : Int) :
    (k.createFd this inode).2.procs.procTable.get p =
      if p = this then some { proc with
        lfdCounter := proc.lfdCounter + 1
        fds := (proc.fds.add proc.lfdCounter k.vfs.fdCounter).2 }
      else k.procs.procTable.get p := by
  rw [createFd_some hp]
  dsimp only
  rw [Procs.get_modifyProc, Procs.get_modifyProc]
  split_ifs with he
  · rw [he, hp]
    rfl
  · rfl

theorem createFd_spec (hp : k.procs.procTable.get this = some proc) (ok : k.vfs.fdTable.Ok)
    (hfresh : k.vfs.fdTable.get k.vfs.fdCounter = none)
    (hroom : k.vfs.fdTable.size < HASHTABLE_CAPACITY)
    (hnew : proc.fds.get proc.lfdCounter = none) (hslot : proc.fds.freeSlot proc.lfdCounter ≠ none)
    (inode : Int) :
    (k.createFd this inode).1 = proc.lfdCounter ∧
      CreatedFd k (k.createFd this inode).2 this proc.lfdCounter inode ∧
      ∀ p, (k.createFd this inode).2.procs.procTable.get p =
        if p = this then some { proc with
          lfdCounter := proc.lfdCounter + 1
          fds := (proc.fds.add proc.lfdCounter k.vfs.fdCounter).2 }
        else k.procs.procTable.get p := by
  have htable := createFd_procTable hp inode
  rw [createFd_some hp] at htable ⊢
  have hadd := ok.add_spec hfresh hroom ⟨k.vfs.fdCounter, inode, 0⟩
  refine ⟨rfl, ⟨hfresh, hadd.1, rfl, hadd.2.2, rfl, ?_, rfl⟩, htable⟩
  rintro ⟨p, l⟩
  refine (congrArg (Option.bind · (·.fds.get l)) (htable p)).trans ?_
  rw [Kernel.descriptor]
  by_cases hpe : p = this
  · simp only [hpe, hp, ↓reduceIte, Option.bind_some, Hashtable.get_add hnew hslot,
      Prod.mk.injEq, true_and]
  · simp only [hpe, ↓reduceIte, Prod.mk.injEq, false_and]

/-- What is left after `fd_close` deleted the descriptor in both tables. -/
def Kernel.dropFd (k : Kernel δ) (p lfd g : Int) : Kernel δ :=
  { k with vfs := (k.vfs.deleteFd g).2, procs := (k.procs.deleteFd p lfd).2 }

theorem dropFd_procTable (hp : k.procs.procTable.get p = some proc) (lfd g q : Int) :
    (k.dropFd p lfd g).procs.procTable.get q =
      if q = p then some { proc with fds := (proc.fds.remove lfd).2 }
      else k.procs.procTable.get q := by
  rw [Kernel.dropFd, Procs.deleteFd, hp]
  dsimp only
  rw [Procs.get_modifyProc]
  split_ifs with he
  · rw [he, hp]
    rfl
  · rfl

theorem dropFd_descriptor (hp : k.procs.procTable.get p = some proc) (ok : proc.fds.Ok)
    (lfd g : Int) (name : Int × Int) :
    (k.dropFd p lfd g).descriptor name =
      if name = (p, lfd) then none else k.descriptor name := by
  obtain ⟨q, l⟩ := name
  rw [Kernel.descriptor, dropFd_procTable hp, Kernel.descriptor]
  by_cases hq : q = p
  · simp only [hq, hp, ↓reduceIte, Option.bind_some, ok.get_remove, Prod.mk.injEq, true_and]
  · simp only [hq, ↓reduceIte, Prod.mk.injEq, false_and]

theorem dropFd_fdTable (ok : k.vfs.fdTable.Ok) (p lfd g x : Int) :
    (k.dropFd p lfd g).vfs.fdTable.get x = if x = g then none else k.vfs.fdTable.get x :=
  ok.get_remove g x

/-- A run of descriptor calls, with the inode that each local descriptor was opened for and the
local descriptors that were closed. -/
structure FdRun (δ : Type u) where
  kernel : Kernel δ
  given : Int × Int → Option Int
  closed : List (Int × Int)

/-- Neither table that `fd_open` adds to is full. -/
def Kernel.Room (k : Kernel δ) : Prop :=
  k.vfs.fdTable.size < HASHTABLE_CAPACITY ∧
    ∀ proc, k.procs.procTable.get k.procs.cproc = some proc → proc.fds.size < HASHTABLE_CAPACITY

inductive FdStep (V : Vtables δ) : FdRun δ → FdRun δ → Prop where
  | setCurrent (r : FdRun δ) (p : Int) :
      FdStep V r { r with kernel := { r.kernel with procs := r.kernel.procs.setCurrent p } }
  | opened (r : FdRun δ) (inode : Int) : r.kernel.Room →
      (r.kernel.fdOpen V inode).1 = lfd → lfd ≠ ID_INVALID →
      FdStep V r ⟨(r.kernel.fdOpen V inode).2,
        Function.update r.given (r.kernel.procs.cproc, lfd) (some inode), r.closed⟩
  | refused (r : FdRun δ) (inode : Int) : r.kernel.Room →
      (r.kernel.fdOpen V inode).1 = ID_INVALID →
      FdStep V r { r with kernel := (r.kernel.fdOpen V inode).2 }
  | closed (r : FdRun δ) (lfd : Int) : (r.kernel.fdClose V lfd).1 = 0 →
      FdStep V r ⟨(r.kernel.fdClose V lfd).2, r.given, (r.kernel.procs.cproc, lfd) :: r.closed⟩
  | kept (r : FdRun δ) (lfd : Int) : (r.kernel.fdClose V lfd).1 ≠ 0 →
      FdStep V r { r with kernel := (r.kernel.fdClose V lfd).2 }
  | fdRead (r : FdRun δ) (lfd : Int) (rbuff n : Nat) :
      FdStep V r { r with kernel := (r.kernel.fdRead V lfd rbuff n).2 }
  | fdWrite (r : FdRun δ) (lfd : Int) (buff n : Nat) :
      FdStep V r { r with kernel := (r.kernel.fdWrite V lfd buff n).2 }

structure FdStart (r : FdRun δ) : Prop where
  fdTable : r.kernel.vfs.fdTable.Unused
  fdCounter : 0 ≤ r.kernel.vfs.fdCounter
  noInode : r.kernel.vfs.inodeTable.get ID_INVALID = none
  procs : ∀ p proc, r.kernel.procs.procTable.get p = some proc →
    proc.fds.Unused ∧ 0 ≤ proc.lfdCounter
  closed : r.closed = []

/-- The two descriptor tables agree. -/
structure DescriptorsSound (V : Vtables δ) (r : FdRun δ) : Prop where
  bijection : Linkage r.kernel.descriptor (r.kernel.vfs.fdTable.get · ≠ none)
  inode : ∀ name g, r.kernel.descriptor name = some g →
    ∃ fd, r.kernel.vfs.fdTable.get g = some fd ∧ r.given name = some fd.inode
  stale : ∀ p lfd, (p, lfd) ∈ r.closed → r.kernel.procs.cproc = p →
    (r.kernel.fdClose V lfd).2 = r.kernel ∧
    (∀ rbuff n, (r.kernel.fdRead V lfd rbuff n).2 = r.kernel) ∧
    ∀ buff n, (r.kernel.fdWrite V lfd buff n).2 = r.kernel
  others : ∀ c p, p ≠ r.kernel.procs.cproc →
    (r.kernel.fdCall V c).2.procs.procTable.get p = r.kernel.procs.procTable.get p ∧
    ∀ lfd g, r.kernel.descriptor (p, lfd) = some g →
      (r.kernel.fdCall V c).2.vfs.fdTable.get g = r.kernel.vfs.fdTable.get g

structure FdOk (r : FdRun δ) : Prop where
  fdOk : r.kernel.vfs.fdTable.Ok
  fdPos : 0 ≤ r.kernel.vfs.fdCounter
  fdKeys : ∀ g, r.kernel.vfs.fdTable.get g ≠ none → 0 ≤ g ∧ g < r.kernel.vfs.fdCounter
  noInode : r.kernel.vfs.inodeTable.get ID_INVALID = none
  procFds : ∀ p proc, r.kernel.procs.procTable.get p = some proc → proc.fds.Ok ∧
    0 ≤ proc.lfdCounter ∧ ∀ l, proc.fds.get l ≠ none → 0 ≤ l ∧ l < proc.lfdCounter
  link : Linkage r.kernel.descriptor (r.kernel.vfs.fdTable.get · ≠ none)
  inode : ∀ name g fd, r.kernel.descriptor name = some g →
    r.kernel.vfs.fdTable.get g = some fd → r.given name = some fd.inode
  closed : ∀ p lfd, (p, lfd) ∈ r.closed → r.kernel.descriptor (p, lfd) = none ∧
    ∀ proc, r.kernel.procs.procTable.get p = some proc → lfd < proc.lfdCounter

variable {r : FdRun δ}

theorem FdOk.start (h : FdStart r) : FdOk r where
  fdOk := h.fdTable.ok
  fdPos := h.fdCounter
  fdKeys := fun g hg => absurd (h.fdTable.get g) hg
  noInode := h.noInode
  procFds := by
    intro p proc hp
    obtain ⟨hu, hpos⟩ := h.procs p proc hp
    exact ⟨hu.ok, hpos, fun l hl => absurd (hu.get l) hl⟩
  link := by
    apply Linkage.empty
    · rintro ⟨p, l⟩
      rw [Kernel.descriptor]
      cases hp : r.kernel.procs.procTable.get p with
      | none => rfl
      | some proc => exact (h.procs p proc hp).1.get l
    · exact fun g hg => hg (h.fdTable.get g)
  inode := by
    intro name g fd _ hg
    rw [h.fdTable.get] at hg
    cases hg
  closed := by
    intro p lfd hc
    rw [h.closed] at hc
    cases hc

theorem FdOk.fresh (h : FdOk r) :
    r.kernel.vfs.fdTable.get r.kernel.vfs.fdCounter = none :=
  Hashtable.fresh_of_lt fun g hg => (h.fdKeys g hg).2

/-- A local descriptor that a process has is never the invalid id. -/
theorem FdOk.descriptor_pos (h : FdOk r) (hd : r.kernel.descriptor (p, l) ≠ none) : 0 ≤ l := by
  rw [Kernel.descriptor] at hd
  cases hp : r.kernel.procs.procTable.get p with
  | none => rw [hp] at hd; exact absurd rfl hd
  | some proc =>
    rw [hp] at hd
    exact ((h.procFds p proc hp).2.2 l hd).1

theorem FdOk.getFd_some (h : FdOk r) (hd : r.kernel.descriptor (p, l) = some g) :
    r.kernel.procs.getFd p l = g := by
  have hpos := h.descriptor_pos (p := p) (l := l) (by rw [hd]; exact Option.some_ne_none g)
  have hne : l ≠ ID_INVALID := fun he => by
    rw [he] at hpos
    exact absurd hpos (by decide)
  rw [getFd_eq _ _ hne]
  exact congrArg (Option.getD · ID_INVALID) hd

theorem getFd_none (hd : k.descriptor (p, l) = none) : k.procs.getFd p l = ID_INVALID := by
  by_cases hne : l = ID_INVALID
  · rw [hne, getFd_invalid]
  · rw [getFd_eq _ _ hne]
    exact congrArg (Option.getD · ID_INVALID) hd

theorem FdOk.get_invalid (h : FdOk r) : r.kernel.vfs.fdTable.get ID_INVALID = none := by
  by_contra hg
  exact absurd (h.fdKeys _ hg).1 (by decide)

theorem FdOk.vtableOf_none (h : FdOk r)
    (hd : r.kernel.descriptor (r.kernel.procs.cproc, lfd) = none) :
    r.kernel.vtableOf lfd = none := by
  rw [Kernel.vtableOf, getFd_none hd, Vfs.fdGetInode, h.get_invalid, Vfs.getVtable, h.noInode]
  exact ite_self _

theorem FdOk.quiet (h : FdOk r) (hq : Quiet fd r.kernel k) : FdOk { r with kernel := k } where
  fdOk := hq.ok h.fdOk
  fdPos := by
    change 0 ≤ k.vfs.fdCounter
    rw [hq.fdCounter]
    exact h.fdPos
  fdKeys := by
    intro g hg
    change 0 ≤ g ∧ g < k.vfs.fdCounter
    rw [hq.fdCounter]
    exact h.fdKeys g (mt (hq.get_none g).2 hg)
  noInode := hq.noInode h.noInode
  procFds := by
    intro p proc hp
    change k.procs.procTable.get p = some proc at hp
    rw [hq.procs] at hp
    exact h.procFds p proc hp
  link := h.link.congr (fun name => congrFun hq.descriptor name)
    fun g => not_congr (hq.get_none g)
  inode := by
    intro name g fd hd hg
    change k.descriptor name = some g at hd
    rw [hq.descriptor] at hd
    have hi := hq.inode g
    rw [show k.vfs.fdTable.get g = some fd from hg, Option.map_some] at hi
    obtain ⟨fd', hg', he⟩ := Option.map_eq_some_iff.1 hi.symm
    rw [← he]
    exact h.inode name g fd' hd hg'
  closed := by
    intro p lfd hc
    obtain ⟨hn, hlt⟩ := h.closed p lfd hc
    change k.descriptor (p, lfd) = none ∧ ∀ proc, k.procs.procTable.get p = some proc → _
    rw [hq.descriptor, hq.procs]
    exact ⟨hn, hlt⟩

section Created

variable {k' : Kernel δ} {l inode : Int}

theorem FdOk.keys_created (h : FdOk r) (hc : CreatedFd r.kernel k' p l inode) :
    ∀ g, k'.vfs.fdTable.get g ≠ none → 0 ≤ g ∧ g < k'.vfs.fdCounter := by
  intro g hg
  have hpos := h.fdPos
  rw [hc.fdTable] at hg
  rw [hc.fdCounter]
  split_ifs at hg with he
  · omega
  · have hlt := h.fdKeys g hg
    omega

theorem FdOk.link_created (h : FdOk r) (hc : CreatedFd r.kernel k' p l inode)
    (hname : r.kernel.descriptor (p, l) = none) :
    Linkage k'.descriptor (k'.vfs.fdTable.get · ≠ none) := by
  refine h.link.insert (p, l) hname (fun hg => hg h.fresh) hc.descriptor fun g => ?_
  rw [hc.fdTable]
  split_ifs with he <;> simp [he]

theorem FdOk.inode_created (h : FdOk r) (hc : CreatedFd r.kernel k' p l inode) :
    ∀ name g fd, k'.descriptor name = some g → k'.vfs.fdTable.get g = some fd →
      Function.update r.given (p, l) (some inode) name = some fd.inode := by
  intro name g fd hd hg
  rw [hc.descriptor] at hd
  rw [hc.fdTable] at hg
  split_ifs at hd with hn
  · cases hd
    rw [if_pos rfl] at hg
    cases hg
    rw [hn]
    exact Function.update_self ..
  · have hne : g ≠ r.kernel.vfs.fdCounter := fun he => h.link.held name g hd (he ▸ h.fresh)
    rw [if_neg hne] at hg
    exact (Function.update_of_ne hn ..).trans (h.inode name g fd hd hg)

/-- A closed id is below the counter, so it is not handed out again. -/
theorem FdOk.closed_created (h : FdOk r) (hp : r.kernel.procs.procTable.get p = some proc)
    (hc : CreatedFd r.kernel k' p proc.lfdCounter inode) (hcl : (q, l) ∈ r.closed) :
    k'.descriptor (q, l) = none := by
  obtain ⟨hn, hlt⟩ := h.closed q l hcl
  rw [hc.descriptor, if_neg, hn]
  intro he
  rw [Prod.mk.injEq] at he
  rw [he.1, he.2] at hlt
  exact lt_irrefl _ (hlt proc hp)

end Created

theorem FdOk.created (h : FdOk r) (hp : r.kernel.procs.procTable.get p = some proc)
    (hroom : r.kernel.vfs.fdTable.size < HASHTABLE_CAPACITY)
    (hfds : proc.fds.size < HASHTABLE_CAPACITY) (inode : Int) :
    (r.kernel.createFd p inode).1 = proc.lfdCounter ∧
      FdOk ⟨(r.kernel.createFd p inode).2,
        Function.update r.given (p, proc.lfdCounter) (some inode), r.closed⟩ := by
  obtain ⟨hok, hpos, hkeys⟩ := h.procFds p proc hp
  have hnew : proc.fds.get proc.lfdCounter = none :=
    Hashtable.fresh_of_lt fun l hl => (hkeys l hl).2
  have hslot : proc.fds.freeSlot proc.lfdCounter ≠ none :=
    fun he => ne_of_lt hfds (hok.freeSlot_none_iff.1 he)
  obtain ⟨hret, hc, htable⟩ := createFd_spec hp h.fdOk h.fresh hroom hnew hslot inode
  have hname : r.kernel.descriptor (p, proc.lfdCounter) = none := by
    rw [Kernel.descriptor, hp]
    exact hnew
  refine ⟨hret, hc.fdOk, ?_, h.keys_created hc, ?_, ?_, h.link_created hc hname,
    h.inode_created hc, fun q l hcl => ⟨h.closed_created hp hc hcl, fun proc' hq => ?_⟩⟩
  · change 0 ≤ (r.kernel.createFd p inode).2.vfs.fdCounter
    have hcounter := h.fdPos
    rw [hc.fdCounter]
    omega
  · change (r.kernel.createFd p inode).2.vfs.inodeTable.get _ = none
    rw [hc.inodeTable]
    exact h.noInode
  · intro q proc' hq
    rw [htable] at hq
    split_ifs at hq with he
    · cases hq
      refine ⟨hok.add hnew _, by simp only; omega, fun l hl => ?_⟩
      dsimp only
      rcases Hashtable.mem_add hl with rfl | hl
      · omega
      · have hlt := hkeys l hl
        omega
    · exact h.procFds q proc' hq
  · rw [htable] at hq
    have hlt := (h.closed q l hcl).2
    split_ifs at hq with he
    · cases hq
      exact lt_trans (hlt proc (he ▸ hp)) (Int.lt_succ _)
    · exact hlt proc' hq

theorem FdOk.dropped (h : FdOk r) (hd : r.kernel.descriptor (p, lfd) = some g) :
    FdOk ⟨r.kernel.dropFd p lfd g, r.given, (p, lfd) :: r.closed⟩ := by
  obtain ⟨proc, hp, hl⟩ := Option.bind_eq_some_iff.1 hd
  obtain ⟨hok, hpos, hkeys⟩ := h.procFds p proc hp
  have hdesc := dropFd_descriptor hp hok lfd g
  have hfd := dropFd_fdTable h.fdOk p lfd g
  have hlfd : lfd < proc.lfdCounter := (hkeys lfd (by rw [hl]; exact Option.some_ne_none g)).2
  refine ⟨h.fdOk.remove g, h.fdPos, ?_, h.noInode, ?_, ?_, ?_, ?_⟩
  · exact fun x hx => h.fdKeys x (Hashtable.mem_remove hx)
  · intro q proc' hq
    rw [dropFd_procTable hp] at hq
    split_ifs at hq with he
    · cases hq
      exact ⟨hok.remove lfd, hpos, fun l hl' => hkeys l (Hashtable.mem_remove hl')⟩
    · exact h.procFds q proc' hq
  · apply h.link.erase hd hdesc
    intro x
    change (r.kernel.dropFd p lfd g).vfs.fdTable.get x ≠ none ↔ _
    rw [hfd]
    split_ifs with he <;> simp [he]
  · intro name x fd hn hx
    change (r.kernel.dropFd p lfd g).descriptor name = some x at hn
    change (r.kernel.dropFd p lfd g).vfs.fdTable.get x = some fd at hx
    rw [hdesc] at hn
    rw [hfd] at hx
    split_ifs at hn hx
    exact h.inode name x fd hn hx
  · intro q l hcl
    change (r.kernel.dropFd p lfd g).descriptor (q, l) = none ∧ _
    rw [hdesc]
    rcases List.mem_cons.1 hcl with he | hcl
    · rw [if_pos he]
      refine ⟨rfl, fun proc' hq => ?_⟩
      rw [Prod.mk.injEq] at he
      rw [dropFd_procTable hp, if_pos he.1] at hq
      cases hq
      rw [he.2]
      exact hlfd
    · obtain ⟨hn, hlt⟩ := h.closed q l hcl
      refine ⟨by split_ifs <;> [rfl; exact hn], fun proc' hq => ?_⟩
      rw [dropFd_procTable hp] at hq
      split_ifs at hq with he
      · cases hq
        exact hlt proc (he ▸ hp)
      · exact hlt proc' hq

theorem FdOk.fdOpen (h : FdOk r) (tame : ∀ ref, (V ref).Tame) (hroom : r.kernel.Room)
    (inode : Int) :
    ((r.kernel.fdOpen V inode).1 = ID_INVALID →
      FdOk { r with kernel := (r.kernel.fdOpen V inode).2 }) ∧
    ((r.kernel.fdOpen V inode).1 ≠ ID_INVALID →
      FdOk ⟨(r.kernel.fdOpen V inode).2,
        Function.update r.given (r.kernel.procs.cproc, (r.kernel.fdOpen V inode).1) (some inode),
        r.closed⟩) := by
  rcases fdOpen_cases tame r.kernel inode with ⟨hret, hq⟩ | ⟨k₁, hq, he⟩
  · exact ⟨fun _ => h.quiet hq, fun hne => absurd hret hne⟩
  · have h₁ : FdOk { r with kernel := k₁ } := h.quiet hq
    rw [he, hq.procs]
    cases hp : r.kernel.procs.procTable.get r.kernel.procs.cproc with
    | none =>
      have hn : k₁.createFd r.kernel.procs.cproc inode = (ID_INVALID, k₁) := by
        rw [Kernel.createFd, hq.procs, hp]
      rw [hn]
      exact ⟨fun _ => h₁, fun hne => absurd rfl hne⟩
    | some proc =>
      have hp₁ : k₁.procs.procTable.get r.kernel.procs.cproc = some proc := by
        rw [hq.procs]
        exact hp
      obtain ⟨hret, hok⟩ := h₁.created hp₁ (hq.size ▸ hroom.1) (hroom.2 proc hp) inode
      rw [hret]
      refine ⟨fun hi => ?_, fun _ => hok⟩
      have hpos := (h.procFds _ proc hp).2.1
      rw [hi] at hpos
      exact absurd hpos (by decide)

theorem FdOk.fdClose (h : FdOk r) (tame : ∀ ref, (V ref).Tame) (lfd : Int) :
    ((r.kernel.fdClose V lfd).1 ≠ 0 → FdOk { r with kernel := (r.kernel.fdClose V lfd).2 }) ∧
    ((r.kernel.fdClose V lfd).1 = 0 →
      FdOk ⟨(r.kernel.fdClose V lfd).2, r.given, (r.kernel.procs.cproc, lfd) :: r.closed⟩) := by
  rcases fdClose_cases tame r.kernel lfd with ⟨hret, hq⟩ | ⟨k₁, hq, hv, he⟩
  · refine ⟨fun _ => h.quiet hq, fun h0 => ?_⟩
    rw [hret] at h0
    cases h0
  · have h₁ : FdOk { r with kernel := k₁ } := h.quiet hq
    cases hd : r.kernel.descriptor (r.kernel.procs.cproc, lfd) with
    | none => exact absurd (h.vtableOf_none hd) hv
    | some g =>
      have hd₁ : k₁.descriptor (r.kernel.procs.cproc, lfd) = some g := by
        rw [hq.descriptor]
        exact hd
      rw [he, h.getFd_some hd]
      exact ⟨fun h0 => absurd rfl h0, fun _ => h₁.dropped hd₁⟩

theorem FdOk.step (h : FdOk r) (tame : ∀ ref, (V ref).Tame) (ht : FdStep V r r') : FdOk r' := by
  cases ht with
  | setCurrent _ p =>
    exact ⟨h.fdOk, h.fdPos, h.fdKeys, h.noInode, h.procFds, h.link, h.inode, h.closed⟩
  | opened _ inode hroom hret hne =>
    subst hret
    exact (h.fdOpen tame hroom inode).2 hne
  | refused _ inode hroom hret => exact (h.fdOpen tame hroom inode).1 hret
  | closed _ lfd h0 => exact (h.fdClose tame lfd).2 h0
  | kept _ lfd h0 => exact (h.fdClose tame lfd).1 h0
  | fdRead _ lfd rbuff n => exact h.quiet (fdRead_quiet tame r.kernel lfd rbuff n)
  | fdWrite _ lfd buff n => exact h.quiet (fdWrite_quiet tame r.kernel lfd buff n)

theorem createFd_other (ok : k.vfs.fdTable.Ok)
    (hfresh : k.vfs.fdTable.get k.vfs.fdCounter = none) (hp : p ≠ this) (inode : Int) :
    (k.createFd this inode).2.procs.procTable.get p = k.procs.procTable.get p ∧
      ∀ g, g ≠ k.vfs.fdCounter →
        (k.createFd this inode).2.vfs.fdTable.get g = k.vfs.fdTable.get g := by
  cases h : k.procs.procTable.get this with
  | none =>
    rw [Kernel.createFd, h]
    exact ⟨rfl, fun _ _ => rfl⟩
  | some proc =>
    rw [createFd_some h]
    refine ⟨?_, fun g hg => ?_⟩
    · dsimp only
      rw [Procs.get_modifyProc, if_neg hp, Procs.get_modifyProc, if_neg hp]
    · refine (ok.get_add hfresh _ g).trans ?_
      rw [if_neg fun he => hg he.1]

theorem dropFd_other (k : Kernel δ) (lfd : Int) (hp : p ≠ this) (hg : x ≠ g) :
    (k.dropFd this lfd g).procs.procTable.get p = k.procs.procTable.get p ∧
      (k.dropFd this lfd g).vfs.fdTable.get x = k.vfs.fdTable.get x := by
  refine ⟨?_, k.vfs.fdTable.get_remove_other hg⟩
  rw [Kernel.dropFd, Procs.deleteFd]
  cases k.procs.procTable.get this with
  | none => rfl
  | some proc =>
    dsimp only
    rw [Procs.get_modifyProc, if_neg hp]

theorem FdOk.held_valid (h : FdOk r) (hd : r.kernel.descriptor name = some g) : g ≠ ID_INVALID :=
  fun he => h.link.held _ g hd (he ▸ h.get_invalid)

/-- A local id of the current process does not reach what another process holds. -/
theorem FdOk.held_ne_getFd (h : FdOk r) (hp : p ≠ r.kernel.procs.cproc)
    (hd : r.kernel.descriptor (p, lfd) = some g) (l : Int) :
    g ≠ r.kernel.procs.getFd r.kernel.procs.cproc l := by
  intro he
  cases hl : r.kernel.descriptor (r.kernel.procs.cproc, l) with
  | none => exact h.held_valid hd (he.trans (getFd_none hl))
  | some g' =>
    rw [h.getFd_some hl] at he
    subst he
    exact hp (congrArg Prod.fst (h.link.inj _ _ g hd hl))

theorem FdOk.others (h : FdOk r) (tame : ∀ ref, (V ref).Tame) (c : FdCall)
    (hp : p ≠ r.kernel.procs.cproc) :
    (r.kernel.fdCall V c).2.procs.procTable.get p = r.kernel.procs.procTable.get p ∧
    ∀ lfd g, r.kernel.descriptor (p, lfd) = some g →
      (r.kernel.fdCall V c).2.vfs.fdTable.get g = r.kernel.vfs.fdTable.get g := by
  have hvalid : ∀ lfd g, r.kernel.descriptor (p, lfd) = some g → g ≠ ID_INVALID :=
    fun _ _ hd => h.held_valid hd
  have hne (l : Int) : ∀ lfd g, r.kernel.descriptor (p, lfd) = some g →
      g ≠ r.kernel.procs.getFd r.kernel.procs.cproc l := fun _ _ hd => h.held_ne_getFd hp hd l
  have hquiet : ∀ fd {k : Kernel δ}, Quiet fd r.kernel k →
      (∀ lfd g, r.kernel.descriptor (p, lfd) = some g → g ≠ fd) →
      k.procs.procTable.get p = r.kernel.procs.procTable.get p ∧
      ∀ lfd g, r.kernel.descriptor (p, lfd) = some g →
        k.vfs.fdTable.get g = r.kernel.vfs.fdTable.get g :=
    fun fd k hq hfd => ⟨by rw [hq.procs], fun lfd g hd => hq.get_other (hfd lfd g hd)⟩
  cases c with
  | fdOpen inode =>
    rw [Kernel.fdCall]
    rcases fdOpen_cases tame r.kernel inode with ⟨_, hq⟩ | ⟨k₁, hq, he⟩
    · exact hquiet _ hq hvalid
    · have h₁ : FdOk { r with kernel := k₁ } := h.quiet hq
      obtain ⟨hproc, hget⟩ := createFd_other h₁.fdOk h₁.fresh (hq.procs ▸ hp) inode
      obtain ⟨hproc₁, hget₁⟩ := hquiet _ hq hvalid
      rw [he]
      refine ⟨hproc.trans hproc₁, fun lfd g hd => (hget g ?_).trans (hget₁ lfd g hd)⟩
      have hlt := (h.fdKeys g (h.link.held _ g hd)).2
      rw [hq.fdCounter]
      exact ne_of_lt hlt
  | fdClose lfd =>
    rw [Kernel.fdCall]
    rcases fdClose_cases tame r.kernel lfd with ⟨_, hq⟩ | ⟨k₁, hq, _, he⟩
    · exact hquiet _ hq (hne lfd)
    · obtain ⟨hproc₁, hget₁⟩ := hquiet _ hq (hne lfd)
      rw [he]
      refine ⟨(dropFd_other k₁ lfd hp (ne_of_lt (Int.lt_succ 0))).1.trans hproc₁, fun l g hd => ?_⟩
      exact (dropFd_other k₁ lfd hp (hne lfd l g hd)).2.trans (hget₁ l g hd)
  | fdRead lfd rbuff n => exact hquiet _ (fdRead_quiet tame r.kernel lfd rbuff n) (hne lfd)
  | fdWrite lfd buff n => exact hquiet _ (fdWrite_quiet tame r.kernel lfd buff n) (hne lfd)

theorem FdOk.sound (h : FdOk r) (tame : ∀ ref, (V ref).Tame) : DescriptorsSound V r where
  bijection := h.link
  inode := by
    intro name g hd
    obtain ⟨fd, hg⟩ := Option.ne_none_iff_exists'.1 (h.link.held name g hd)
    exact ⟨fd, hg, h.inode name g fd hd hg⟩
  stale := by
    rintro p lfd hc rfl
    have hn := fdCall_unopened V (h.vtableOf_none (h.closed _ lfd hc).1)
    exact ⟨by rw [hn.1], hn.2⟩
  others := fun c _ hp => h.others tame c hp

/-- In every run the processes' descriptor tables are in bijection with the global one. -/
theorem descriptors_sound (tame : ∀ ref, (V ref).Tame) (hr : Reachable FdStart (FdStep V) r) :
    DescriptorsSound V r := by
  apply FdOk.sound _ tame
  apply hr.invariant
  · exact fun _ hs => .start hs
  · exact fun _ _ h ht => h.step tame ht

def Kernel.oneFile : Kernel Devices where
  vfs := ((Vfs.boot.createInode .NORMAL_FILE).2.setVtable 0 (some .initrdVtable)).2
  procs := (Procs.boot.create default [] 0).2.setCurrent 1
  mem := fun _ => 0#8
  dev := ⟨.zeroed⟩

theorem oneFile_start : FdStart ⟨.oneFile, fun _ => none, []⟩ where
  fdTable := Hashtable.zeroed_unused
  fdCounter := le_refl 0
  noInode := by decide +kernel
  procs := by
    intro p proc hp
    change (Procs.boot.create default [] 0).2.procTable.get p = some proc at hp
    rw [Procs.get_create Procs.boot_ok] at hp
    split_ifs at hp
    · cases hp
      exact ⟨⟨rfl, fun _ _ => rfl⟩, le_refl 0⟩
    · have hn : Procs.boot.procTable.get p = none := Hashtable.zeroed_unused.get p
      rw [hn] at hp
      cases hp
  closed := rfl

theorem descriptors_sound_oneFile :
    DescriptorsSound (vtables 64)
      ⟨((Kernel.oneFile.fdOpen (vtables 64) 0).2.fdClose (vtables 64) 0).2,
        Function.update (fun _ => none) (1, 0) (some 0), [(1, 0)]⟩ := by
  have hroom : Kernel.oneFile.Room := ⟨by decide, fun proc hp => by cases hp; decide⟩
  have hopen := (Reachable.init oneFile_start).step
    (FdStep.opened (V := vtables 64) ⟨.oneFile, fun _ => none, []⟩ 0 hroom rfl (by decide))
  exact descriptors_sound (vtables_tame 64) (hopen.step (.closed _ 0 rfl))

end Tupai
