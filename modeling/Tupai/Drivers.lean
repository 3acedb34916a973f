import Tupai.Kernel
import Tupai.Tar

namespace Tupai
set_option autoImplicit true

/-- What the drivers keep: the headers of the initrd's files by inode. -/
structure Devices where
  inodes : Hashtable Nat

def initrdOpenCall (inode : Int) (k : Kernel Devices) : Int × Kernel Devices :=
  (if inode = ID_INVALID then 1 else 0, k)

def initrdCloseCall (fd : Int) (k : Kernel Devices) : Int × Kernel Devices :=
  (if fd = ID_INVALID then 1 else 0, k)

/-- The loop of `initrd_read_call`: `left` is how often `i + 1 < n` still holds. The result is the
memory, the offset and `i`. -/
def copyData (w data filesize rbuff : Nat) :
    (left : Nat) → (mem : Mem) → (offset i : Nat) → Mem × Nat × Nat
  | 0, mem, offset, i => (mem, offset, i)
  | left + 1, mem, offset, i =>
    if offset < filesize then
      copyData w data filesize rbuff left
        (mem.store (wrap w (rbuff + i)) (mem (wrap w (data + offset)))) (offset + 1) (i + 1)
    else (mem, offset, i)

def initrdReadCall (w : Nat) (fd : Int) (rbuff n : Nat) (k : Kernel Devices) :
    Int × Kernel Devices :=
  match k.dev.inodes.get (k.vfs.fdGetInode fd) with
  | some header =>
    let filesize := tarSize w k.mem header
    let (mem, offset, i) :=
      copyData w (tarData w header) filesize rbuff (n - 1) k.mem (k.vfs.getOffset fd) 0
    (i, { k with
      mem := mem.store (wrap w (rbuff + i)) 0#8
      vfs := (k.vfs.setOffset fd offset).2 })
  | none => (-1, k)

def initrdVtable (w : Nat) : Vtable (Kernel Devices) where
  openCall := some initrdOpenCall
  closeCall := some initrdCloseCall
  readCall := some (initrdReadCall w)
  writeCall := none

/-- The vtables of the kernel. Nothing calls `pipe_init`, so that `pipe_vtable` stays null. -/
def vtables (w : Nat) : Vtables Devices
  | .initrdVtable => initrdVtable w
  | .pipeVtable | .other _ => ⟨none, none, none, none⟩

theorem setOffset_quiet (k : Kernel Devices) (mem : Mem) (fd : Int) (offset : Nat) :
    Quiet fd k { k with mem := mem, vfs := (k.vfs.setOffset fd offset).2 } := by
  rw [Vfs.setOffset]
  cases k.vfs.fdTable.get fd with
  | none => exact { Quiet.refl fd k with }
  | some d => exact ⟨rfl, rfl, ⟨fun d => { d with offset := offset }, fun _ => rfl, rfl⟩, id⟩

theorem initrdReadCall_quiet (w : Nat) (fd : Int) (rbuff n : Nat) (k : Kernel Devices) :
    Quiet fd k (initrdReadCall w fd rbuff n k).2 := by
  rw [initrdReadCall]
  cases k.dev.inodes.get (k.vfs.fdGetInode fd) with
  | none => exact .refl fd k
  | some header => exact setOffset_quiet k _ fd _

theorem vtables_tame (w : Nat) (ref : VtableRef) : (vtables w ref).Tame := by
  cases ref with
  | initrdVtable =>
    refine ⟨?_, ?_, ?_, ?_⟩
    · rintro _ ⟨⟩ inode k
      exact .refl _ k
    · rintro _ ⟨⟩ fd k
      exact .refl _ k
    · rintro _ ⟨⟩ fd rbuff n k
      exact initrdReadCall_quiet w fd rbuff n k
    · rintro _ ⟨⟩
  | pipeVtable | other addr => exact ⟨nofun, nofun, nofun, nofun⟩

end Tupai
