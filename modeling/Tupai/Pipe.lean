import Tupai.Drivers
import Tupai.Fifo

namespace Tupai
set_option autoImplicit true

def PIPE_SIZE : Nat := 4096

/-- What both drivers keep: the initrd's files, the pipes by inode, and the contents of every
`pipe_t` by its address. -/
structure Drivers where
  initrd : Devices
  pipes : Hashtable Nat
  pipe : Nat → Queue Byte

namespace Kernel

/-- A callback of the initrd leaves the pipes alone. -/
def withInitrd (call : Kernel Devices → Int × Kernel Devices) (k : Kernel Drivers) :
    Int × Kernel Drivers :=
  let (result, k') := call ⟨k.vfs, k.procs, k.mem, k.dev.initrd⟩
  (result, ⟨k'.vfs, k'.procs, k'.mem, { k.dev with initrd := k'.dev }⟩)

def setPipe (k : Kernel Drivers) (pipe : Nat) (q : Queue Byte) : Kernel Drivers :=
  { k with dev := { k.dev with pipe := Function.update k.dev.pipe pipe q } }

/-- The pipe that `pipes[fd.get_inode()]` finds. -/
def pipeOf (k : Kernel Drivers) (fd : Int) : Option Nat := k.dev.pipes.get (k.vfs.fdGetInode fd)

end Kernel

/-- `fifo_t::write` of a pipe. Locking its mutex has no effect. -/
def fifoWrite (q : Queue Byte) (item : Byte) : Queue Byte := q.push PIPE_SIZE item

/-- `fifo_t::read_unsafe` of a pipe, once its loop has found the pipe not empty. -/
def readUnsafe (q : Queue Byte) : Byte × Queue Byte := q.pop PIPE_SIZE

def pipeOpenCall (inode : Int) (k : Kernel Drivers) : Int × Kernel Drivers :=
  (if inode = ID_INVALID then 1 else 0, k)

def pipeCloseCall (fd : Int) (k : Kernel Drivers) : Int × Kernel Drivers :=
  (if fd = ID_INVALID then 1 else 0, k)

/-- The length `n` of the buffer is not looked at. While the pipe is empty the call does not
return. -/
def pipeReadCall (w : Nat) (fd : Int) (rbuff _n : Nat) (k : Kernel Drivers) :
    Option (Int × Kernel Drivers) :=
  match k.pipeOf fd with
  | some pipe =>
    if (k.dev.pipe pipe).len = 0 then none
    else
      let (item, q) := readUnsafe (k.dev.pipe pipe)
      some (1, { k.setPipe pipe q with
        mem := (k.mem.store (wrap w rbuff) item).store (wrap w (rbuff + 1)) 0#8 })
  | none => some (0, k)

/-- The loop of `pipe_write_call`, from byte `i` on. -/
def writeBytes (w : Nat) (mem : Mem) (buff : Nat) : (left i : Nat) → (q : Queue Byte) → Queue Byte
  | 0, _, q => q
  | left + 1, i, q => writeBytes w mem buff left (i + 1) (fifoWrite q (mem (wrap w (buff + i))))

/-- The conversion of a `size_t` to a `ssize_t` of width `w`. -/
def toSsize (w n : Nat) : Int := (n : Int).bmod (2 ^ w)

def pipeWriteCall (w : Nat) (fd : Int) (buff n : Nat) (k : Kernel Drivers) :
    Int × Kernel Drivers :=
  match k.pipeOf fd with
  | some pipe => (toSsize w n, k.setPipe pipe (writeBytes w k.mem buff n 0 (k.dev.pipe pipe)))
  | none => (0, k)

/-- A call that does not return leaves everything as it is. -/
def pipeVtable (w : Nat) : Vtable (Kernel Drivers) where
  openCall := some pipeOpenCall
  closeCall := some pipeCloseCall
  readCall := some fun fd rbuff n k => (pipeReadCall w fd rbuff n k).getD (0, k)
  writeCall := some (pipeWriteCall w)

/-- The vtables of the kernel; `piped` says whether `pipe_init` has filled in `pipe_vtable`. -/
def driverVtables (w : Nat) (piped : Bool) : Vtables Drivers
  | .initrdVtable => {
      openCall := some fun inode => Kernel.withInitrd (initrdOpenCall inode)
      closeCall := some fun fd => Kernel.withInitrd (initrdCloseCall fd)
      readCall := some fun fd rbuff n => Kernel.withInitrd (initrdReadCall w fd rbuff n)
      writeCall := none }
  | .pipeVtable => if piped then pipeVtable w else ⟨none, none, none, none⟩
  | .other _ => ⟨none, none, none, none⟩

theorem withInitrd_quiet {call : Kernel Devices → Int × Kernel Devices}
    (h : ∀ k, Quiet fd k (call k).2) (k : Kernel Drivers) :
    Quiet fd k (k.withInitrd call).2 := by
  have hq := h ⟨k.vfs, k.procs, k.mem, k.dev.initrd⟩
  exact ⟨hq.procs, hq.fdCounter, hq.fdTable, hq.noInode⟩

theorem pipeReadCall_quiet (w : Nat) (fd : Int) (rbuff n : Nat) (k : Kernel Drivers) :
    Quiet fd k ((pipeReadCall w fd rbuff n k).getD (0, k)).2 := by
  rw [pipeReadCall]
  cases k.pipeOf fd with
  | none => exact .refl fd k
  | some pipe =>
    dsimp only
    split_ifs
    · exact .refl fd k
    · exact { Quiet.refl fd k with }

theorem pipeWriteCall_quiet (w : Nat) (fd : Int) (buff n : Nat) (k : Kernel Drivers) :
    Quiet fd k (pipeWriteCall w fd buff n k).2 := by
  rw [pipeWriteCall]
  cases k.pipeOf fd with
  | none => exact .refl fd k
  | some pipe => exact { Quiet.refl fd k with }

theorem driverVtables_tame (w : Nat) (piped : Bool) (ref : VtableRef) :
    (driverVtables w piped ref).Tame := by
  cases ref with
  | initrdVtable =>
    refine ⟨?_, ?_, ?_, ?_⟩
    · rintro _ ⟨⟩ inode k
      exact withInitrd_quiet (fun k => .refl _ k) k
    · rintro _ ⟨⟩ fd k
      exact withInitrd_quiet (fun k => .refl _ k) k
    · rintro _ ⟨⟩ fd rbuff n k
      exact withInitrd_quiet (initrdReadCall_quiet w fd rbuff n) k
    · rintro _ ⟨⟩
  | pipeVtable =>
    cases piped with
    | false => exact ⟨nofun, nofun, nofun, nofun⟩
    | true =>
      refine ⟨?_, ?_, ?_, ?_⟩
      · rintro _ ⟨⟩ inode k
        exact .refl _ k
      · rintro _ ⟨⟩ fd k
        exact .refl _ k
      · rintro _ ⟨⟩ fd rbuff n k
        exact pipeReadCall_quiet w fd rbuff n k
      · rintro _ ⟨⟩ fd buff n k
        exact pipeWriteCall_quiet w fd buff n k
  | other addr => exact ⟨nofun, nofun, nofun, nofun⟩

end Tupai
