import Tupai.Hashtable
import Tupai.Lib.Transition
import Tupai.Path

namespace Tupai
set_option autoImplicit true

inductive InodeType where
  | NORMAL_FILE | HARD_LINK | SYM_LINK | CHAR_DEVICE | BLOCK_DEVICE | DIRECTORY | PIPE
deriving DecidableEq, Repr, Inhabited

inductive VtableRef where
  | initrdVtable
  | pipeVtable
  | other (addr : Nat)
deriving DecidableEq, Repr

structure Fs where
  id : Int
  name : Chars
  root : Int
deriving Inhabited

structure InodeChild where
  inode : Int
  name : Chars

structure Inode where
  id : Int
  fs : Int
  children : List InodeChild
  type : InodeType
  vtable : Option VtableRef
deriving Inhabited

structure Fd where
  id : Int
  inode : Int
  offset : Nat
deriving Inhabited

def FS_NAME_MAX : Nat := 256

structure Vfs where
  fsTable : Hashtable Fs
  inodeTable : Hashtable Inode
  fdTable : Hashtable Fd
  fsCounter : Int
  inodeCounter : Int
  fdCounter : Int
  vfsRoot : Int

/-- The loop of `get_child` over the children. -/
def findChild : (children : List InodeChild) → (name : Chars) → Int
  | [], _ => ID_INVALID
  | child :: children, name =>
    if strEqual child.name name then child.inode else findChild children name

/-- The loop of `get_inode` over the children, which has its own copy of the search. -/
def walkChildren (element : Chars) : (cinode : Int) → (children : List InodeChild) → Int
  | cinode, [] => cinode
  | cinode, child :: children =>
    if strEqual child.name element then child.inode else walkChildren element cinode children

/-- The loop of `mount` over the children, which is a third copy. -/
def mountChildren (element : Chars) : (cinode : Int) → (children : List InodeChild) → Int
  | cinode, [] => cinode
  | cinode, child :: children =>
    if strEqual child.name element then child.inode else mountChildren element cinode children

theorem findChild_eq (children : List InodeChild) (name : Chars) :
    findChild children name =
      ((children.find? (strEqual ·.name name)).map InodeChild.inode).getD ID_INVALID := by
  induction children with
  | nil => rfl
  | cons child children ih =>
    rw [findChild, List.find?_cons]
    cases strEqual child.name name with
    | true => rfl
    | false => exact ih

theorem walkChildren_eq (children : List InodeChild) (element : Chars) :
    walkChildren element ID_INVALID children = findChild children element := by
  induction children with
  | nil => rfl
  | cons child children ih => rw [walkChildren, findChild, ih]

theorem mountChildren_eq (children : List InodeChild) (element : Chars) :
    mountChildren element ID_INVALID children = findChild children element := by
  induction children with
  | nil => rfl
  | cons child children ih => rw [mountChildren, findChild, ih]

namespace Vfs

/-- The zero-initialised static variables with their member initialisers. -/
def boot : Vfs := ⟨.zeroed, .zeroed, .zeroed, 0, 0, 0, ID_INVALID⟩

def getRoot (v : Vfs) : Int := v.vfsRoot

def setRoot (v : Vfs) (root : Int) : Int × Vfs := (0, { v with vfsRoot := root })

def getChild (v : Vfs) (inode : Int) (name : Chars) : Int :=
  match v.inodeTable.get inode with
  | some inode => findChild inode.children name
  | none => ID_INVALID

/-- The loop of `get_inode`, from element `i` on. The buffer is overwritten in every round, so
that what it held before the first one does not matter. -/
def walk (v : Vfs) (path : Chars) : (rounds : Nat) → (i : Nat) → (cinode : Int) → Int
  | 0, _, cinode => cinode
  | rounds + 1, i, cinode =>
    let element := (pathElementGet path [] i).2
    let cinode :=
      match v.inodeTable.get cinode with
      | some inode => walkChildren element ID_INVALID inode.children
      | none => ID_INVALID
    if cinode = ID_INVALID then ID_INVALID else walk v path rounds (i + 1) cinode

def getInode (v : Vfs) (path : Chars) : Int := v.walk path (pathElementCount path) 0 v.vfsRoot

def createInode (v : Vfs) (type : InodeType) : Int × Vfs :=
  let nid := v.inodeCounter
  let ninode : Inode := ⟨nid, ID_INVALID, [], type, none⟩
  (nid, { v with inodeCounter := nid + 1, inodeTable := (v.inodeTable.add nid ninode).2 })

def createFd (v : Vfs) (inode : Int) : Int × Vfs :=
  let nid := v.fdCounter
  let nfd : Fd := ⟨nid, inode, 0⟩
  (nid, { v with fdCounter := nid + 1, fdTable := (v.fdTable.add nid nfd).2 })

def deleteFd (v : Vfs) (fd : Int) : Int × Vfs :=
  let (removed, fdTable) := v.fdTable.remove fd
  (if removed then 0 else 1, { v with fdTable := fdTable })

def fsGetRoot (v : Vfs) (fs : Int) : Int :=
  match v.fsTable.get fs with
  | some fs => fs.root
  | none => ID_INVALID

/-- The result is the pair of the error code and `*rtype`. -/
def getType (v : Vfs) (inode : Int) : Int × InodeType :=
  match v.inodeTable.get inode with
  | some inode => (0, inode.type)
  | none => (1, .NORMAL_FILE)

/-- The result is the pair of the error code and `*rvtable`. -/
def getVtable (v : Vfs) (inode : Int) : Int × Option VtableRef :=
  match v.inodeTable.get inode with
  | some inode => (0, inode.vtable)
  | none => (1, none)

/-- A write through the pointer that `inode_table[inode]` returns. -/
def modifyInode (v : Vfs) (inode : Int) (f : Inode → Inode) : Int × Vfs :=
  match v.inodeTable.get inode with
  | some _ => (0, { v with inodeTable := v.inodeTable.modify inode f })
  | none => (1, v)

def setVtable (v : Vfs) (inode : Int) (vtable : Option VtableRef) : Int × Vfs :=
  v.modifyInode inode fun i => { i with vtable := vtable }

def setFs (v : Vfs) (inode fs : Int) : Int × Vfs :=
  v.modifyInode inode fun i => { i with fs := fs }

def mountChild (v : Vfs) (inode child : Int) (name : Chars) : Int × Vfs :=
  let nchild : InodeChild := ⟨child, strCpyN name [] FILENAME_MAX⟩
  v.modifyInode inode fun i => { i with children := i.children ++ [nchild] }

def createFs (v : Vfs) (name : Chars) : Int × Vfs :=
  let (fsroot, v) := v.createInode .DIRECTORY
  let nid := v.fsCounter
  let nfs : Fs := ⟨nid, strCpyN name [] FS_NAME_MAX, fsroot⟩
  let v := { v with fsCounter := nid + 1, fsTable := (v.fsTable.add nid nfs).2 }
  (nid, (v.setFs fsroot nid).2)

/-- The loop of `mount`, from element `i` on; `leftover i` is what the uninitialised buffer holds
before that round. -/
def mountWalk (v : Vfs) (path : Chars) (leftover : Nat → Chars) :
    (rounds : Nat) → (i : Nat) → (cinode : Int) → Int
  | 0, _, cinode => cinode
  | rounds + 1, i, cinode =>
    let element := (pathElementGet path (leftover i) i).2
    let cinode :=
      match v.inodeTable.get cinode with
      | some inode => mountChildren element ID_INVALID inode.children
      | none => ID_INVALID
    if cinode = ID_INVALID then ID_INVALID
    else mountWalk v path leftover rounds (i + 1) cinode

/-- On a path without elements `element_count - 1` wraps, and the buffers are never written. -/
def mount (w : Nat) (v : Vfs) (leftover : Nat → Chars) (inode : Int) (path : Chars) : Int × Vfs :=
  let last := sizePred w (pathElementCount path)
  let cinode := v.mountWalk path leftover last 0 v.vfsRoot
  if cinode = ID_INVALID then (1, v)
  else
    let filename := (pathElementGet path (leftover last) last).2
    let nchild : InodeChild := ⟨inode, strCpyN filename [] FILENAME_MAX⟩
    v.modifyInode cinode fun dir => { dir with children := dir.children ++ [nchild] }

def setType (v : Vfs) (inode : Int) (type : InodeType) : Int × Vfs :=
  v.modifyInode inode fun i => { i with type := type }

def deleteFs (v : Vfs) (fs : Int) : Int × Vfs :=
  let (removed, fsTable) := v.fsTable.remove fs
  (if removed then 0 else 1, { v with fsTable := fsTable })

def deleteInode (v : Vfs) (inode : Int) : Int × Vfs :=
  let (removed, inodeTable) := v.inodeTable.remove inode
  (if removed then 0 else 1, { v with inodeTable := inodeTable })

/-- A write through the pointer that `fs_table[fs]` returns. -/
def modifyFs (v : Vfs) (fs : Int) (f : Fs → Fs) : Int × Vfs :=
  match v.fsTable.get fs with
  | some _ => (0, { v with fsTable := v.fsTable.modify fs f })
  | none => (1, v)

def fsSetName (v : Vfs) (fs : Int) (name : Chars) : Int × Vfs :=
  v.modifyFs fs fun fs => { fs with name := strCpyN name fs.name FS_NAME_MAX }

def fsSetRoot (v : Vfs) (fs root : Int) : Int × Vfs :=
  v.modifyFs fs fun fs => { fs with root := root }

/-- The result is the pair of the error code and the buffer. -/
def fsGetName (v : Vfs) (fs : Int) (buff : Chars) (n : Nat) : Int × Chars :=
  match v.fsTable.get fs with
  | some fs => (0, strCpyN fs.name buff n)
  | none => (1, buff)

def fdGetInode (v : Vfs) (fd : Int) : Int :=
  match v.fdTable.get fd with
  | some fd => fd.inode
  | none => ID_INVALID

def getOffset (v : Vfs) (fd : Int) : Nat :=
  match v.fdTable.get fd with
  | some fd => fd.offset
  | none => 0

def setOffset (v : Vfs) (fd : Int) (offset : Nat) : Int × Vfs :=
  match v.fdTable.get fd with
  | some _ => (0, { v with fdTable := v.fdTable.modify fd fun d => { d with offset := offset } })
  | none => (1, v)

def fdSetInode (v : Vfs) (fd inode : Int) : Int × Vfs :=
  match v.fdTable.get fd with
  | some _ => (0, { v with fdTable := v.fdTable.modify fd fun d => { d with inode := inode } })
  | none => (1, v)

/-- Filesystem and inode ids are handed out in order, and a filesystem comes with its root. -/
structure Ok (v : Vfs) : Prop where
  fsOk : v.fsTable.Ok
  fsKeys : ∀ f, v.fsTable.get f ≠ none → f < v.fsCounter
  inodeOk : v.inodeTable.Ok
  inodeKeys : ∀ i, v.inodeTable.get i ≠ none → 0 ≤ i ∧ i < v.inodeCounter
  counter : 0 ≤ v.inodeCounter
  roots : v.fsTable.size ≤ v.inodeTable.size

variable {v v' : Vfs}

/-- A round of the loop of `get_inode` is a call of `get_child`. -/
theorem walk_succ (v : Vfs) (path : Chars) (rounds i : Nat) (cinode : Int) :
    v.walk path (rounds + 1) i cinode =
      if v.getChild cinode (pathElementGet path [] i).2 = ID_INVALID then ID_INVALID
      else v.walk path rounds (i + 1) (v.getChild cinode (pathElementGet path [] i).2) := by
  rw [walk, getChild]
  cases v.inodeTable.get cinode with
  | none => rfl
  | some inode => simp only [walkChildren_eq]

theorem mountWalk_succ (v : Vfs) (path : Chars) (leftover : Nat → Chars) (rounds i : Nat)
    (cinode : Int) : v.mountWalk path leftover (rounds + 1) i cinode =
      if v.getChild cinode (pathElementGet path (leftover i) i).2 = ID_INVALID then ID_INVALID
      else v.mountWalk path leftover rounds (i + 1)
        (v.getChild cinode (pathElementGet path (leftover i) i).2) := by
  rw [mountWalk, getChild]
  cases v.inodeTable.get cinode with
  | none => rfl
  | some inode => simp only [mountChildren_eq]

theorem boot_ok : boot.Ok where
  fsOk := Hashtable.zeroed_unused.ok
  fsKeys := fun f hf => absurd (Hashtable.zeroed_unused.get f) hf
  inodeOk := Hashtable.zeroed_unused.ok
  inodeKeys := fun i hi => absurd (Hashtable.zeroed_unused.get i) hi
  counter := le_refl 0
  roots := le_refl 0

theorem Ok.freshInode (ok : v.Ok) : v.inodeTable.get v.inodeCounter = none :=
  Hashtable.fresh_of_lt fun i hi => (ok.inodeKeys i hi).2

theorem Ok.freshFs (ok : v.Ok) : v.fsTable.get v.fsCounter = none :=
  Hashtable.fresh_of_lt ok.fsKeys

theorem Ok.createInode (ok : v.Ok) (type : InodeType) : (v.createInode type).2.Ok where
  fsOk := ok.fsOk
  fsKeys := ok.fsKeys
  inodeOk := ok.inodeOk.add ok.freshInode _
  inodeKeys := by
    intro i hi
    have hpos := ok.counter
    dsimp only [Vfs.createInode]
    rcases Hashtable.mem_add hi with rfl | hi
    · omega
    · have := ok.inodeKeys i hi
      omega
  counter := by
    have hpos := ok.counter
    dsimp only [Vfs.createInode]
    omega
  roots := by
    have hsize := ok.inodeOk.size_add ok.freshInode ⟨v.inodeCounter, ID_INVALID, [], type, none⟩
    have hfs := ok.fsOk.size_le
    have hroots := ok.roots
    dsimp only [Vfs.createInode]
    omega

theorem modifyInode_snd (v : Vfs) (inode : Int) (f : Inode → Inode) :
    (v.modifyInode inode f).2 = { v with inodeTable := v.inodeTable.modify inode f } := by
  rw [modifyInode]
  cases h : v.inodeTable.get inode with
  | none => rw [Hashtable.modify_absent h]
  | some i => rfl

theorem Ok.modifyInode (ok : v.Ok) (inode : Int) (f : Inode → Inode) :
    (v.modifyInode inode f).2.Ok := by
  rw [modifyInode_snd]
  refine ⟨ok.fsOk, ok.fsKeys, ok.inodeOk.modify inode f, fun i hi => ok.inodeKeys i ?_, ok.counter,
    ?_⟩
  · rw [Hashtable.get_modify] at hi
    split_ifs at hi with he
    · simpa using hi
    · exact hi
  · rw [Hashtable.size_modify]
    exact ok.roots

theorem Ok.createFs (ok : v.Ok) (name : Chars) : (v.createFs name).2.Ok := by
  have h := ok.createInode .DIRECTORY
  apply Ok.modifyInode
  refine ⟨ok.fsOk.add ok.freshFs _, fun f hf => ?_, h.inodeOk, h.inodeKeys, h.counter, ?_⟩
  · change f < v.fsCounter + 1
    rcases Hashtable.mem_add hf with rfl | hf
    · exact Int.lt_succ _
    · have := ok.fsKeys f hf
      omega
  · have hinode := ok.inodeOk.size_add ok.freshInode
      ⟨v.inodeCounter, ID_INVALID, [], .DIRECTORY, none⟩
    have hfs := ok.fsOk.size_add ok.freshFs
      ⟨v.fsCounter, strCpyN name [] FS_NAME_MAX, v.inodeCounter⟩
    have hroots := ok.roots
    dsimp only [Vfs.createInode]
    omega

theorem Ok.setOffset (ok : v.Ok) (fd : Int) (offset : Nat) : (v.setOffset fd offset).2.Ok := by
  rw [Vfs.setOffset]
  cases v.fdTable.get fd with
  | none => exact ok
  | some d => exact ⟨ok.fsOk, ok.fsKeys, ok.inodeOk, ok.inodeKeys, ok.counter, ok.roots⟩

end Vfs

/-- The calls that change the VFS; nothing calls `delete_fs` and `delete_inode`. -/
inductive VfsStep : Vfs → Vfs → Prop where
  | createInode (v : Vfs) (type : InodeType) : VfsStep v (v.createInode type).2
  | modifyInode (v : Vfs) (inode : Int) (f : Inode → Inode) : VfsStep v (v.modifyInode inode f).2
  | createFs (v : Vfs) (name : Chars) : VfsStep v (v.createFs name).2
  | setRoot (v : Vfs) (root : Int) : VfsStep v (v.setRoot root).2
  | createFd (v : Vfs) (inode : Int) : VfsStep v (v.createFd inode).2
  | deleteFd (v : Vfs) (fd : Int) : VfsStep v (v.deleteFd fd).2
  | setOffset (v : Vfs) (fd : Int) (offset : Nat) : VfsStep v (v.setOffset fd offset).2

theorem Vfs.Ok.run {v : Vfs} (hr : Lib.Reachable (· = Vfs.boot) VfsStep v) : v.Ok := by
  apply hr.invariant
  · rintro _ rfl
    exact boot_ok
  · intro v v' ok ht
    cases ht with
    | createInode type => exact ok.createInode type
    | modifyInode inode f => exact ok.modifyInode inode f
    | createFs name => exact ok.createFs name
    | setRoot root => exact ⟨ok.fsOk, ok.fsKeys, ok.inodeOk, ok.inodeKeys, ok.counter, ok.roots⟩
    | createFd inode => exact ⟨ok.fsOk, ok.fsKeys, ok.inodeOk, ok.inodeKeys, ok.counter, ok.roots⟩
    | deleteFd fd => exact ⟨ok.fsOk, ok.fsKeys, ok.inodeOk, ok.inodeKeys, ok.counter, ok.roots⟩
    | setOffset fd offset => exact ok.setOffset fd offset

end Tupai
