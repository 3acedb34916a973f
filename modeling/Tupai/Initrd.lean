import Tupai.Descriptors
import Tupai.Drivers

namespace Tupai
set_option autoImplicit true

/-- The type that the `switch` gives to the last element of a name. -/
def entryType (typeflag : Byte) : InodeType :=
  if typeflag = 0x30#8 then .NORMAL_FILE
  else if typeflag = 0x31#8 then .HARD_LINK
  else if typeflag = 0x32#8 then .SYM_LINK
  else if typeflag = 0x33#8 then .CHAR_DEVICE
  else if typeflag = 0x34#8 then .BLOCK_DEVICE
  else if typeflag = 0x36#8 then .PIPE
  else .DIRECTORY

namespace Kernel

/-- Making the missing inode for one element of a name; `last` is `i + 1 == n`. -/
def makeElement (w : Nat) (k : Kernel Devices) (fs : Int) (header : Nat) (buff : Chars)
    (last : Bool) (cinode : Int) : Int × Kernel Devices :=
  let type := if last then entryType (tarTypeflag w k.mem header) else .DIRECTORY
  let (ninode, v) := k.vfs.createInode type
  let v := (v.setFs ninode fs).2
  let v := (v.mountChild cinode ninode buff).2
  if type = .NORMAL_FILE ∧ last = true then
    (ninode, { k with
      vfs := (v.setVtable ninode (some .initrdVtable)).2
      dev := { k.dev with inodes := (k.dev.inodes.add ninode header).2 } })
  else (ninode, { k with vfs := (v.setVtable ninode none).2 })

/-- The loop over the elements of a name, from element `i` on. -/
def mountElements (w : Nat) (fs : Int) (header : Nat) (filename : Chars) :
    (rounds : Nat) → (i : Nat) → (cinode : Int) → Kernel Devices → Kernel Devices
  | 0, _, _, k => k
  | rounds + 1, i, cinode, k =>
    let buff := (pathElementGet filename [] i).2
    let tryinode := k.vfs.getChild cinode buff
    if tryinode ≠ ID_INVALID then mountElements w fs header filename rounds (i + 1) tryinode k
    else
      let (ninode, k) := k.makeElement w fs header buff (rounds = 0) cinode
      mountElements w fs header filename rounds (i + 1) ninode k

def mountEntry (w : Nat) (fs : Int) (header : Nat) (k : Kernel Devices) : Kernel Devices :=
  let filename := tarFilename w k.mem header
  mountElements w fs header filename (pathElementCount filename) 0 k.vfs.getRoot k

/-- The loop over the headers; without fuel it has not come to the end of the archive. -/
def mountArchive (w : Nat) (fs : Int) :
    (fuel : Nat) → (cheader : Nat) → Kernel Devices → Option (Kernel Devices)
  | 0, _, _ => none
  | fuel + 1, cheader, k =>
    if cheader = 0 then some k
    else mountArchive w fs fuel (tarNext w k.mem cheader) (mountEntry w fs cheader k)

/-- `initrd_create` for an archive at `start`. The result is the new filesystem and the state. -/
def initrdCreate (w fuel : Nat) (k : Kernel Devices) (start : Nat) (name : Chars) :
    Option (Int × Kernel Devices) :=
  let (fs, v) := k.vfs.createFs name
  let v := (v.setRoot (v.fsGetRoot fs)).2
  (mountArchive w fs fuel start { k with vfs := v }).map fun k => (fs, k)

theorem makeElement_mem (k : Kernel Devices) (w : Nat) (fs : Int) (header : Nat) (buff : Chars)
    (last : Bool) (cinode : Int) : (k.makeElement w fs header buff last cinode).2.mem = k.mem := by
  rw [makeElement]
  split_ifs <;> rfl

theorem mountElements_mem (w : Nat) (fs : Int) (header : Nat) (filename : Chars)
    (rounds i : Nat) (cinode : Int) (k : Kernel Devices) :
    (mountElements w fs header filename rounds i cinode k).mem = k.mem := by
  induction rounds generalizing i cinode k with
  | zero => rfl
  | succ rounds ih =>
    rw [mountElements]
    split_ifs with htry
    · exact ih _ _ _
    · exact (ih _ _ _).trans (k.makeElement_mem w fs header _ _ cinode)

theorem mountEntry_mem (w : Nat) (fs : Int) (header : Nat) (k : Kernel Devices) :
    (k.mountEntry w fs header).mem = k.mem := mountElements_mem ..

end Kernel

end Tupai
