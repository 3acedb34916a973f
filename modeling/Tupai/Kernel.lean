import Tupai.Process
import Tupai.Vfs

namespace Tupai
set_option autoImplicit true

/-- The state that the descriptor calls work on; `dev` is what the drivers keep for themselves. -/
structure Kernel (δ : Type u) where
  vfs : Vfs
  procs : Procs
  mem : Mem
  dev : δ

/-- The callbacks of a vtable; a null entry is `none`. Buffers are given by address. -/
structure Vtable (σ : Type u) where
  openCall : Option (Int → σ → Int × σ)
  closeCall : Option (Int → σ → Int × σ)
  readCall : Option (Int → Nat → Nat → σ → Int × σ)
  writeCall : Option (Int → Nat → Nat → σ → Int × σ)

/-- The contents of the vtables that the inodes point at. -/
abbrev Vtables (δ : Type u) := VtableRef → Vtable (Kernel δ)

namespace Kernel

def createFd (k : Kernel δ) (this inode : Int) : Int × Kernel δ :=
  match k.procs.procTable.get this with
  | some proc =>
    let nid := proc.lfdCounter
    let procs := k.procs.modifyProc this fun p => { p with lfdCounter := nid + 1 }
    let (nfd, vfs) := k.vfs.createFd inode
    let procs := procs.modifyProc this fun p => { p with fds := (p.fds.add nid nfd).2 }
    (nid, { k with vfs := vfs, procs := procs })
  | none => (ID_INVALID, k)

variable (V : Vtables δ)

def fdOpen (k : Kernel δ) (inode : Int) : Int × Kernel δ :=
  match (k.vfs.getVtable inode).2 with
  | none => (ID_INVALID, k)
  | some vtable =>
    match (V vtable).openCall with
    | none => (ID_INVALID, k)
    | some openCall =>
      let (result, k) := openCall inode k
      if result = 0 then k.createFd k.procs.getCurrent inode else (ID_INVALID, k)

def fdClose (k : Kernel δ) (lfd : Int) : Int × Kernel δ :=
  let cproc := k.procs.getCurrent
  if cproc = ID_INVALID then (1, k)
  else
    let fd := k.procs.getFd cproc lfd
    match (k.vfs.getVtable (k.vfs.fdGetInode fd)).2 with
    | none => (1, k)
    | some vtable =>
      match (V vtable).closeCall with
      | none => (1, k)
      | some closeCall =>
        let (result, k) := closeCall fd k
        if result ≠ 0 then (1, k)
        else (0, { k with
          vfs := (k.vfs.deleteFd fd).2
          procs := (k.procs.deleteFd cproc lfd).2 })

def fdRead (k : Kernel δ) (lfd : Int) (rbuff n : Nat) : Int × Kernel δ :=
  let cproc := k.procs.getCurrent
  if cproc = ID_INVALID then (1, k)
  else
    let fd := k.procs.getFd cproc lfd
    match (k.vfs.getVtable (k.vfs.fdGetInode fd)).2 with
    | none => (0, k)
    | some vtable =>
      match (V vtable).readCall with
      | none => (0, k)
      | some readCall => readCall fd rbuff n k

def fdWrite (k : Kernel δ) (lfd : Int) (buff n : Nat) : Int × Kernel δ :=
  let cproc := k.procs.getCurrent
  if cproc = ID_INVALID then (1, k)
  else
    let fd := k.procs.getFd cproc lfd
    match (k.vfs.getVtable (k.vfs.fdGetInode fd)).2 with
    | none => (1, k)
    | some vtable =>
      match (V vtable).writeCall with
      | none => (1, k)
      | some writeCall => writeCall fd buff n k

end Kernel

inductive FdCall where
  | fdOpen (inode : Int)
  | fdClose (lfd : Int)
  | fdRead (lfd : Int) (rbuff n : Nat)
  | fdWrite (lfd : Int) (buff n : Nat)

def Kernel.fdCall (V : Vtables δ) (k : Kernel δ) : FdCall → Int × Kernel δ
  | .fdOpen inode => k.fdOpen V inode
  | .fdClose lfd => k.fdClose V lfd
  | .fdRead lfd rbuff n => k.fdRead V lfd rbuff n
  | .fdWrite lfd buff n => k.fdWrite V lfd buff n

/-- What a callback for descriptor `fd` may do: anything to its device and to memory, but to the
descriptors nothing except writes to the record of `fd` that keep its inode. -/
structure Quiet (fd : Int) (k k' : Kernel δ) : Prop where
  procs : k'.procs = k.procs
  fdCounter : k'.vfs.fdCounter = k.vfs.fdCounter
  fdTable : ∃ f : Fd → Fd, (∀ d, (f d).inode = d.inode) ∧
    k'.vfs.fdTable = k.vfs.fdTable.modify fd f
  noInode : k.vfs.inodeTable.get ID_INVALID = none → k'.vfs.inodeTable.get ID_INVALID = none

theorem Quiet.refl (fd : Int) (k : Kernel δ) : Quiet fd k k where
  procs := rfl
  fdCounter := rfl
  fdTable := by
    refine ⟨id, fun _ => rfl, ?_⟩
    rw [Hashtable.modify]
    cases k.vfs.fdTable.slot fd with
    | none => rfl
    | some i => simp
  noInode := id

/-- The callbacks add and remove no descriptors. An open callback is given no descriptor. -/
structure Vtable.Tame (vtable : Vtable (Kernel δ)) : Prop where
  openCall : ∀ call, vtable.openCall = some call → ∀ inode k, Quiet ID_INVALID k (call inode k).2
  closeCall : ∀ call, vtable.closeCall = some call → ∀ fd k, Quiet fd k (call fd k).2
  readCall : ∀ call, vtable.readCall = some call →
    ∀ fd rbuff n k, Quiet fd k (call fd rbuff n k).2
  writeCall : ∀ call, vtable.writeCall = some call →
    ∀ fd buff n k, Quiet fd k (call fd buff n k).2

end Tupai
