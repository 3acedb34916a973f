import Tupai.Drivers
import Tupai.Growth
import Tupai.Stdio

namespace Tupai
open Lib
set_option autoImplicit true

namespace Vfs

structure SameTables (v v' : Vfs) : Prop where
  fsTable : v'.fsTable = v.fsTable
  inodeTable : v'.inodeTable = v.inodeTable
  fdTable : v'.fdTable = v.fdTable

/-- `create_inode` returns a new inode, or says that it did nothing. -/
def CreatesInode (v : Vfs) (type : InodeType) : Prop :=
  let (inode, v') := v.createInode type
  v.inodeTable.get inode = none ∧ v'.getType inode = (0, type) ∨
    inode = ID_INVALID ∧ v.SameTables v'

/-- `create_fs` returns a new filesystem with its name and a root directory, or says that it did
nothing. -/
def CreatesFs (v : Vfs) (name : Chars) : Prop :=
  let (fs, v') := v.createFs name
  v.fsTable.get fs = none ∧
      (∀ buff n, (v'.fsGetName fs buff n).1 = 0 ∧ cstr (v'.fsGetName fs buff n).2 =
        ((cstr name).take (FS_NAME_MAX - 1)).take (n - 1)) ∧
      v'.getType (v'.fsGetRoot fs) = (0, .DIRECTORY) ∨
    fs = ID_INVALID ∧ v.SameTables v'

structure NewFd (v v' : Vfs) (fd inode : Int) : Prop where
  before : v.fdTable.get fd = none
  after : v'.fdTable.get fd ≠ none
  inode : v'.fdGetInode fd = inode

/-- `create_fd` returns a new descriptor, or says that it did nothing. -/
def CreatesFd (v : Vfs) (inode : Int) : Prop :=
  let (fd, v') := v.createFd inode
  NewFd v v' fd inode ∨ fd = ID_INVALID ∧ v.SameTables v'

variable {v : Vfs}

theorem not_invalid_of_pos {n : Int} (h : 0 ≤ n) : n ≠ ID_INVALID := by
  rintro rfl
  exact absurd h (by decide)

theorem IdsOk.createsInode_iff (ok : v.IdsOk) (type : InodeType) :
    v.CreatesInode type ↔ v.inodeTable.size < HASHTABLE_CAPACITY := by
  have hne : v.inodeCounter ≠ ID_INVALID := not_invalid_of_pos ok.inode.pos
  rw [CreatesInode, createInode]
  dsimp only
  rw [or_iff_left fun h => hne h.1, and_iff_right ok.inode.fresh, getType]
  dsimp only
  rw [ok.inode.get_add]
  split_ifs with hroom
  · exact iff_of_true rfl hroom
  · exact iff_of_false (fun h => by cases h) hroom

theorem createFs_eq (v : Vfs) (name : Chars) :
    v.createFs name = (v.fsCounter, { v with
      fsCounter := v.fsCounter + 1
      fsTable := (v.fsTable.add v.fsCounter
        ⟨v.fsCounter, strCpyN name [] FS_NAME_MAX, v.inodeCounter⟩).2
      inodeCounter := v.inodeCounter + 1
      inodeTable := (v.inodeTable.add v.inodeCounter
        ⟨v.inodeCounter, ID_INVALID, [], .DIRECTORY, none⟩).2.modify v.inodeCounter
          fun i => { i with fs := v.fsCounter } }) := by
  rw [createFs]
  dsimp only
  rw [setFs, modifyInode_snd]
  rfl

theorem IdsOk.createsFs_iff (ok : v.IdsOk) (name : Chars) :
    v.CreatesFs name ↔ v.inodeTable.size < HASHTABLE_CAPACITY ∧
      v.fsTable.size < HASHTABLE_CAPACITY := by
  have hne : v.fsCounter ≠ ID_INVALID := not_invalid_of_pos ok.fs.pos
  have hfs := ok.fs.get_add ⟨v.fsCounter, strCpyN name [] FS_NAME_MAX, v.inodeCounter⟩
  have hinode := ok.inode.get_add ⟨v.inodeCounter, ID_INVALID, [], .DIRECTORY, none⟩
  rw [CreatesFs, createFs_eq]
  dsimp only
  rw [or_iff_left fun h => hne h.1, and_iff_right ok.fs.fresh, fsGetRoot, getType]
  simp only [fsGetName]
  rw [hfs]
  by_cases hroom : v.fsTable.size < HASHTABLE_CAPACITY
  · rw [if_pos hroom]
    dsimp only
    rw [Hashtable.get_modify, if_pos rfl, hinode]
    by_cases hroot : v.inodeTable.size < HASHTABLE_CAPACITY
    · rw [if_pos hroot]
      refine iff_of_true ⟨fun buff n => ⟨rfl, ?_⟩, rfl⟩ ⟨hroot, hroom⟩
      rw [cstr_strCpyN, cstr_strCpyN]
    · rw [if_neg hroot]
      exact iff_of_false (fun h => by cases h.2) fun h => hroot h.1
  · rw [if_neg hroom]
    exact iff_of_false (fun h => by cases (h.1 [] 0).1) fun h => hroom h.2

theorem IdsOk.createsFd_iff (ok : v.IdsOk) (inode : Int) :
    v.CreatesFd inode ↔ v.fdTable.size < HASHTABLE_CAPACITY := by
  have hne : v.fdCounter ≠ ID_INVALID := not_invalid_of_pos ok.fd.pos
  have hget := ok.fd.get_add ⟨v.fdCounter, inode, 0⟩
  rw [CreatesFd, createFd]
  dsimp only
  rw [or_iff_left fun h => hne h.1]
  split_ifs at hget with hroom
  · refine iff_of_true ⟨ok.fd.fresh, ?_, ?_⟩ hroom
    · exact fun hn => by cases hget.symm.trans hn
    · rw [fdGetInode]
      dsimp only
      rw [hget]
  · exact iff_of_false (fun h => h.after hget) hroom

end Vfs

/-- The calls on the VFS, on processes and on descriptors. -/
inductive CreationStep (w : Nat) : Kernel Devices → Kernel Devices → Prop where
  | vfs (k : Kernel Devices) (c : VfsCall) :
      CreationStep w k { k with vfs := (k.vfs.call w c).2 }
  | procs (k : Kernel Devices) (c : ThreadCall) : k.procs.call c = some s →
      CreationStep w k { k with procs := s }
  | setCurrent (k : Kernel Devices) (p : Int) :
      CreationStep w k { k with procs := k.procs.setCurrent p }
  | fdCall (k : Kernel Devices) (c : FdCall) : CreationStep w k (k.fdCall (vtables w) c).2

namespace Kernel

/-- `fd_open` gives the current process a new descriptor, or says that it did nothing. -/
def OpensFd (w : Nat) (k : Kernel Devices) (inode : Int) : Prop :=
  let (lfd, k') := k.fdOpen (vtables w) inode
  k.vfs.NewFd k'.vfs (k'.procs.getFd k.procs.getCurrent lfd) inode ∨
    lfd = ID_INVALID ∧ k.vfs.SameTables k'.vfs ∧ k'.procs = k.procs

/-- The current process and both tables take a new descriptor. -/
def TakesFd (k : Kernel Devices) : Prop :=
  ∀ proc, k.procs.procTable.get k.procs.cproc = some proc →
    k.vfs.fdTable.size < HASHTABLE_CAPACITY ∧
      proc.fds.Takes proc.lfdCounter k.vfs.fdCounter

end Kernel

/-- The invariant: all ids were handed out by the counters. -/
structure CreationOk (k : Kernel Devices) : Prop where
  vfs : k.vfs.IdsOk
  procs : k.procs.IdsOk

variable {k : Kernel Devices}

theorem CreationOk.kernelOk (h : CreationOk k) : KernelOk k :=
  ⟨h.vfs.fd.ok, fun g hg => (h.vfs.fd.keys g hg).2, h.procs⟩

theorem openCall_same (ho : (vtables w ref).openCall = some call) (inode : Int)
    (k : Kernel Devices) : (call inode k).2 = k := by
  cases ref with
  | initrdVtable => cases ho; rfl
  | pipeVtable | other => cases ho

theorem closeCall_same (ho : (vtables w ref).closeCall = some call) (fd : Int)
    (k : Kernel Devices) : (call fd k).2 = k := by
  cases ref with
  | initrdVtable => cases ho; rfl
  | pipeVtable | other => cases ho

theorem CreationOk.readCall (h : CreationOk k) (ho : (vtables w ref).readCall = some call)
    (fd : Int) (rbuff n : Nat) : CreationOk (call fd rbuff n k).2 := by
  cases ref with
  | initrdVtable =>
    cases ho
    rw [initrdReadCall]
    cases k.dev.inodes.get (k.vfs.fdGetInode fd) with
    | none => exact h
    | some header => exact ⟨h.vfs.call w (.setOffset fd _), h.procs⟩
  | pipeVtable | other => cases ho

theorem CreationOk.createFd (h : CreationOk k) (this inode : Int) :
    CreationOk (k.createFd this inode).2 := by
  refine ⟨?_, (h.kernelOk.createFd this inode).procs⟩
  cases hp : k.procs.procTable.get this with
  | none =>
    rw [Kernel.createFd, hp]
    exact h.vfs
  | some proc =>
    rw [createFd_some hp]
    exact h.vfs.call 0 (.createFd inode)

theorem CreationOk.fdCall (h : CreationOk k) (w : Nat) (c : FdCall) :
    CreationOk (k.fdCall (vtables w) c).2 := by
  cases c with
  | fdOpen inode =>
    rw [Kernel.fdCall]
    have hcall : ∀ ref call, (vtables w ref).openCall = some call →
        ∀ inode, CreationOk (call inode k).2 := by
      intro ref call ho inode
      rwa [openCall_same ho]
    rcases fdOpen_keeps h hcall inode with ⟨_, h₁⟩ | ⟨k₁, h₁, he⟩
    · exact h₁
    · rw [he]
      exact h₁.createFd _ inode
  | fdClose lfd =>
    rw [Kernel.fdCall]
    have hcall : ∀ ref call, (vtables w ref).closeCall = some call →
        ∀ fd, fd = k.procs.getFd k.procs.cproc lfd → CreationOk (call fd k).2 := by
      intro ref call ho fd _
      rwa [closeCall_same ho]
    rcases fdClose_keeps h hcall with ⟨_, h₁⟩ | ⟨k₁, h₁, _, he⟩
    · exact h₁
    · rw [he]
      exact ⟨h₁.vfs.call w (.deleteFd _), h₁.procs.deleteFd _ lfd⟩
  | fdRead lfd rbuff n =>
    exact fdRead_keeps h fun ref call ho fd _ => h.readCall ho fd rbuff n
  | fdWrite lfd buff n =>
    refine fdWrite_keeps h fun ref call ho fd _ => ?_
    cases ref <;> cases ho

theorem CreationOk.step (h : CreationOk k) (ht : CreationStep w k k') : CreationOk k' := by
  cases ht with
  | vfs _ c => exact ⟨h.vfs.call w c, h.procs⟩
  | procs _ c hc => exact ⟨h.vfs, h.procs.call c hc⟩
  | setCurrent _ p => exact ⟨h.vfs, h.procs.procOk, h.procs.procKeys, h.procs.lfds⟩
  | fdCall _ c => exact h.fdCall w c

theorem CreationOk.run (hr : Reachable BootKernel (CreationStep w) k) : CreationOk k := by
  apply hr.invariant
  · rintro k ⟨hv, hp⟩
    refine ⟨?_, ?_⟩
    · rw [hv]
      exact .boot
    · rw [hp]
      exact .boot
  · exact fun _ _ h ht => h.step ht

theorem Vfs.IdsOk.newFd_iff (ok : k.vfs.IdsOk) (fd inode : Int) :
    k.vfs.NewFd (k.vfs.createFd inode).2 fd inode ↔
      k.vfs.fdTable.size < HASHTABLE_CAPACITY ∧ fd = k.vfs.fdCounter := by
  have hget := ok.fd.get_add ⟨k.vfs.fdCounter, inode, 0⟩
  change (k.vfs.createFd inode).2.fdTable.get k.vfs.fdCounter = _ at hget
  constructor
  · intro hnew
    have hfd := (Hashtable.mem_add hnew.after).resolve_right (not_not.2 hnew.before)
    subst hfd
    refine ⟨?_, rfl⟩
    by_contra hfull
    rw [if_neg hfull] at hget
    exact hnew.after hget
  · rintro ⟨hroom, rfl⟩
    rw [if_pos hroom] at hget
    refine ⟨ok.fd.fresh, ?_, ?_⟩
    · rw [hget]
      exact Option.some_ne_none _
    · rw [Vfs.fdGetInode, hget]

/-- What the current process finds under the local id that `create_fd` returned. -/
theorem CreationOk.getFd_createFd (h : CreationOk k)
    (hp : k.procs.procTable.get p = some proc) (inode : Int) :
    (k.createFd p inode).2.procs.getFd p proc.lfdCounter = k.vfs.fdCounter ↔
      proc.fds.Takes proc.lfdCounter k.vfs.fdCounter := by
  have hlfd : proc.lfdCounter ≠ ID_INVALID := Vfs.not_invalid_of_pos (h.procs.lfds.get hp)
  have hfd : ID_INVALID ≠ k.vfs.fdCounter := (Vfs.not_invalid_of_pos h.vfs.fd.pos).symm
  rw [← Hashtable.get_add_self_iff, getFd_eq _ _ hlfd, createFd_procTable hp, if_pos rfl,
    Option.bind_some]
  cases (proc.fds.add proc.lfdCounter k.vfs.fdCounter).2.get proc.lfdCounter with
  | none => exact iff_of_false hfd (fun hn => by cases hn)
  | some g => exact (Option.some_inj).symm

theorem CreationOk.opensFd_iff (h : CreationOk k) (w : Nat) (inode : Int) :
    k.OpensFd w inode ↔ (k.Accepts (vtables w) inode → k.TakesFd) := by
  by_cases hacc : k.Accepts (vtables w) inode
  · have heq : k.fdOpen (vtables w) inode = k.createFd k.procs.cproc inode := by
      obtain ⟨ref, call, hv, ho, hr⟩ := hacc
      simp only [Kernel.fdOpen, hv, ho, openCall_same ho]
      rw [if_pos hr, Procs.getCurrent]
    rw [Kernel.OpensFd, heq, Kernel.TakesFd, forall_prop_of_true hacc]
    cases hp : k.procs.procTable.get k.procs.cproc with
    | none =>
      have hnone : k.createFd k.procs.cproc inode = (ID_INVALID, k) := by
        rw [Kernel.createFd, hp]
      rw [hnone]
      exact iff_of_true (.inr ⟨rfl, ⟨rfl, rfl, rfl⟩, rfl⟩) fun proc hn => by cases hn
    | some proc =>
      have hlfd : proc.lfdCounter ≠ ID_INVALID := Vfs.not_invalid_of_pos (h.procs.lfds.get hp)
      have hget := h.getFd_createFd hp inode
      rw [createFd_some hp] at hget ⊢
      dsimp only at hget ⊢
      rw [or_iff_left fun hinv => hlfd hinv.1, h.vfs.newFd_iff, Procs.getCurrent, hget]
      simp only [Option.some.injEq, forall_eq']
  · obtain ⟨hres, hsame⟩ := fdOpen_refused_keeps (P := (· = k)) hacc rfl
      fun _ _ ho => openCall_same ho inode k
    refine iff_of_true (.inr ⟨hres, ?_⟩) fun ha => absurd ha hacc
    change k.vfs.SameTables (k.fdOpen (vtables w) inode).2.vfs ∧
      (k.fdOpen (vtables w) inode).2.procs = k.procs
    rw [hsame]
    exact ⟨⟨rfl, rfl, rfl⟩, rfl⟩

/-- Each creation works or says so exactly when the tables that it adds to have room. -/
structure CreationSound (w : Nat) (k : Kernel Devices) : Prop where
  createInode : ∀ type,
    k.vfs.CreatesInode type ↔ k.vfs.inodeTable.size < HASHTABLE_CAPACITY
  createFs : ∀ name, k.vfs.CreatesFs name ↔
    k.vfs.inodeTable.size < HASHTABLE_CAPACITY ∧ k.vfs.fsTable.size < HASHTABLE_CAPACITY
  createFd : ∀ inode, k.vfs.CreatesFd inode ↔ k.vfs.fdTable.size < HASHTABLE_CAPACITY
  fdOpen : ∀ inode, k.OpensFd w inode ↔ (k.Accepts (vtables w) inode → k.TakesFd)

theorem creation_iff (hr : Reachable BootKernel (CreationStep w) k) : CreationSound w k := by
  have h := CreationOk.run hr
  exact ⟨h.vfs.createsInode_iff, h.vfs.createsFs_iff, h.vfs.createsFd_iff, h.opensFd_iff w⟩

/-- A kernel that has created a number of inodes and nothing else. -/
def manyInodes : Nat → Kernel Devices
  | 0 => ⟨.boot, .boot, fun _ => 0#8, ⟨.zeroed⟩⟩
  | n + 1 => { manyInodes n with vfs := ((manyInodes n).vfs.createInode .NORMAL_FILE).2 }

theorem manyInodes_reachable (w n : Nat) :
    Reachable BootKernel (CreationStep w) (manyInodes n) := by
  induction n with
  | zero => exact .init ⟨rfl, rfl⟩
  | succ n ih => exact ih.step (.vfs _ (.createInode .NORMAL_FILE))

theorem manyInodes_size (n : Nat) :
    (manyInodes n).vfs.inodeTable.size = min n HASHTABLE_CAPACITY := by
  induction n with
  | zero => rfl
  | succ n ih =>
    have ok := (CreationOk.run (manyInodes_reachable 64 n)).vfs.inode
    refine (ok.ok.size_add ok.fresh _).trans ?_
    rw [ih]
    omega

def openable : Kernel Devices where
  vfs := ((Vfs.boot.createInode .NORMAL_FILE).2.setVtable 0 (some .initrdVtable)).2
  procs := (Procs.boot.create default [] 0).2.setCurrent 1
  mem := fun _ => 0#8
  dev := ⟨.zeroed⟩

theorem openable_reachable (w : Nat) : Reachable BootKernel (CreationStep w) openable := by
  have hinode := (manyInodes_reachable w 1).step (.vfs _ (.setVtable 0 (some .initrdVtable)))
  have hproc := hinode.step (.procs _ (.create default [] 0) rfl)
  exact hproc.step (.setCurrent _ 1)

theorem creation_iff_openable : openable.vfs.CreatesInode .PIPE ∧ openable.vfs.CreatesFs [] ∧
    openable.vfs.CreatesFd 0 ∧ openable.OpensFd 64 0 := by
  have hsound : CreationSound 64 openable := creation_iff (openable_reachable 64)
  refine ⟨(hsound.createInode .PIPE).2 (by decide), (hsound.createFs []).2 (by decide),
    (hsound.createFd 0).2 (by decide), (hsound.fdOpen 0).2 fun _ => ?_⟩
  rintro _ ⟨⟩
  exact ⟨by decide, 0, by decide, .inl rfl⟩

/-- With 256 inodes both `create_inode` and `create_fs` return handles to nothing. -/
theorem creation_fails : Reachable BootKernel (CreationStep 64) (manyInodes 256) ∧
    (manyInodes 256).vfs.inodeTable.size = HASHTABLE_CAPACITY ∧
    ¬ (manyInodes 256).vfs.CreatesInode .NORMAL_FILE ∧ ¬ (manyInodes 256).vfs.CreatesFs [] := by
  have hr := manyInodes_reachable 64 256
  have ok := (CreationOk.run hr).vfs
  have hfull : ¬ (manyInodes 256).vfs.inodeTable.size < HASHTABLE_CAPACITY := by
    rw [manyInodes_size]
    exact lt_irrefl _
  refine ⟨hr, manyInodes_size 256, fun h => ?_, fun h => ?_⟩
  · exact hfull ((ok.createsInode_iff .NORMAL_FILE).1 h)
  · exact hfull ((ok.createsFs_iff []).1 h).1

end Tupai
