import Tupai.Lib.Transition
import Tupai.Lookup

namespace Tupai
open Lib
set_option autoImplicit true

inductive VfsCall where
  | createInode (type : InodeType)
  | createFs (name : Chars)
  | createFd (inode : Int)
  | deleteInode (inode : Int)
  | deleteFs (fs : Int)
  | deleteFd (fd : Int)
  | setRoot (root : Int)
  | mount (leftover : Nat → Chars) (inode : Int) (path : Chars)
  | mountChild (inode child : Int) (name : Chars)
  | setType (inode : Int) (type : InodeType)
  | setVtable (inode : Int) (vtable : Option VtableRef)
  | setFs (inode fs : Int)
  | fsSetName (fs : Int) (name : Chars)
  | fsSetRoot (fs root : Int)
  | fdSetInode (fd inode : Int)
  | setOffset (fd : Int) (offset : Nat)

/-- The calls that add to the VFS or change an inode, but neither move its root nor delete. -/
def VfsCall.Adds : VfsCall → Prop
  | .createInode _ | .createFs _ | .mount .. | .mountChild .. | .setType .. | .setVtable ..
  | .setFs .. => True
  | _ => False

/-- The calls that build up a tree of inodes. -/
def VfsCall.Builds : VfsCall → Prop
  | .createInode _ | .createFs _ | .setRoot _ | .mount .. | .mountChild .. => True
  | _ => False

namespace Vfs

def call (w : Nat) (v : Vfs) : VfsCall → Int × Vfs
  | .createInode type => v.createInode type
  | .createFs name => v.createFs name
  | .createFd inode => v.createFd inode
  | .deleteInode inode => v.deleteInode inode
  | .deleteFs fs => v.deleteFs fs
  | .deleteFd fd => v.deleteFd fd
  | .setRoot root => v.setRoot root
  | .mount leftover inode path => v.mount w leftover inode path
  | .mountChild inode child name => v.mountChild inode child name
  | .setType inode type => v.setType inode type
  | .setVtable inode vtable => v.setVtable inode vtable
  | .setFs inode fs => v.setFs inode fs
  | .fsSetName fs name => v.fsSetName fs name
  | .fsSetRoot fs root => v.fsSetRoot fs root
  | .fdSetInode fd inode => v.fdSetInode fd inode
  | .setOffset fd offset => v.setOffset fd offset

def CallStep (w : Nat) (v v' : Vfs) : Prop := ∃ c, (v.call w c).2 = v'

def BuildStep (w : Nat) (v v' : Vfs) : Prop := ∃ c : VfsCall, c.Builds ∧ (v.call w c).2 = v'

structure IdsOk (v : Vfs) : Prop where
  fs : v.fsTable.Numbered v.fsCounter
  inode : v.inodeTable.Numbered v.inodeCounter
  fd : v.fdTable.Numbered v.fdCounter

variable {v v' : Vfs}

theorem IdsOk.boot : boot.IdsOk := ⟨.zeroed, .zeroed, .zeroed⟩

theorem IdsOk.modifyInode (ok : v.IdsOk) (inode : Int) (f : Inode → Inode) :
    (v.modifyInode inode f).2.IdsOk := by
  rw [modifyInode_snd]
  exact ⟨ok.fs, ok.inode.modify inode f, ok.fd⟩

theorem IdsOk.modifyFs (ok : v.IdsOk) (fs : Int) (f : Fs → Fs) : (v.modifyFs fs f).2.IdsOk := by
  rw [Vfs.modifyFs]
  cases v.fsTable.get fs with
  | none => exact ok
  | some _ => exact ⟨ok.fs.modify fs f, ok.inode, ok.fd⟩

theorem IdsOk.mount (ok : v.IdsOk) (w : Nat) (leftover : Nat → Chars) (inode : Int)
    (path : Chars) : (v.mount w leftover inode path).2.IdsOk := by
  rw [Vfs.mount]
  dsimp only
  split_ifs
  · exact ok
  · exact ok.modifyInode _ _

theorem IdsOk.createFs (ok : v.IdsOk) (name : Chars) : (v.createFs name).2.IdsOk := by
  apply IdsOk.modifyInode
  exact ⟨ok.fs.add _, ok.inode.add _, ok.fd⟩

theorem IdsOk.call (ok : v.IdsOk) (w : Nat) (c : VfsCall) : (v.call w c).2.IdsOk := by
  cases c with
  | createInode type => exact ⟨ok.fs, ok.inode.add _, ok.fd⟩
  | createFs name => exact ok.createFs name
  | createFd inode => exact ⟨ok.fs, ok.inode, ok.fd.add _⟩
  | deleteInode inode => exact ⟨ok.fs, ok.inode.remove inode, ok.fd⟩
  | deleteFs fs => exact ⟨ok.fs.remove fs, ok.inode, ok.fd⟩
  | deleteFd fd => exact ⟨ok.fs, ok.inode, ok.fd.remove fd⟩
  | setRoot root => exact ⟨ok.fs, ok.inode, ok.fd⟩
  | mount leftover inode path => exact ok.mount w leftover inode path
  | mountChild inode child name => exact ok.modifyInode inode _
  | setType inode type => exact ok.modifyInode inode _
  | setVtable inode vtable => exact ok.modifyInode inode _
  | setFs inode fs => exact ok.modifyInode inode _
  | fsSetName fs name => exact ok.modifyFs fs _
  | fsSetRoot fs root => exact ok.modifyFs fs _
  | fdSetInode fd inode =>
    rw [Vfs.call, Vfs.fdSetInode]
    cases v.fdTable.get fd with
    | none => exact ok
    | some _ => exact ⟨ok.fs, ok.inode, ok.fd.modify fd fun d => { d with inode := inode }⟩
  | setOffset fd offset =>
    rw [Vfs.call, Vfs.setOffset]
    cases v.fdTable.get fd with
    | none => exact ok
    | some _ => exact ⟨ok.fs, ok.inode, ok.fd.modify fd fun d => { d with offset := offset }⟩

theorem IdsOk.run (hr : Reachable (· = Vfs.boot) (CallStep w) v) : v.IdsOk := by
  apply hr.invariant
  · rintro _ rfl
    exact .boot
  · rintro v _ ok ⟨c, rfl⟩
    exact ok.call w c

/-- The root stays, every inode stays, and lists of children only grow. -/
structure Grows (v v' : Vfs) : Prop where
  root : v'.vfsRoot = v.vfsRoot
  children : ∀ i inode, v.inodeTable.get i = some inode → ∃ inode' more,
    v'.inodeTable.get i = some inode' ∧ inode'.children = inode.children ++ more

theorem Grows.refl (v : Vfs) : v.Grows v :=
  ⟨rfl, fun _ inode hget => ⟨inode, [], hget, (List.append_nil _).symm⟩⟩

theorem findChild_append (hne : findChild children name ≠ ID_INVALID) (more : List InodeChild) :
    findChild (children ++ more) name = findChild children name := by
  induction children with
  | nil => exact absurd rfl hne
  | cons child children ih =>
    rw [List.cons_append, findChild, findChild]
    rw [findChild] at hne
    split_ifs at hne ⊢
    · rfl
    · exact ih hne

theorem Grows.childOf (h : v.Grows v') (hc : v.childOf i name = some c) :
    v'.childOf i name = some c := by
  rw [Vfs.childOf] at hc ⊢
  split_ifs at hc with hne
  cases hget : v.inodeTable.get i with
  | none =>
    rw [getChild, hget] at hne
    exact absurd rfl hne
  | some inode =>
    obtain ⟨inode', more, hget', hmore⟩ := h.children i inode hget
    have hold : v.getChild i name = findChild inode.children name := by rw [getChild, hget]
    have hnew : v'.getChild i name = findChild inode.children name := by
      rw [getChild, hget']
      dsimp only
      rw [hmore, findChild_append (hold ▸ hne)]
    rw [hnew, ← hold, if_neg hne, hc]

theorem Grows.lookup (h : v.Grows v') {labels : List Chars}
    (hvalid : v.lookup labels ≠ ID_INVALID) : v'.lookup labels = v.lookup labels := by
  rw [Vfs.lookup] at hvalid
  cases hf : follow v.childOf v.vfsRoot labels with
  | none =>
    rw [hf] at hvalid
    exact absurd rfl hvalid
  | some t =>
    rw [Vfs.lookup, Vfs.lookup, h.root, hf, follow_mono (fun _ _ _ hc => h.childOf hc) hf]

theorem Grows.modifyInode (v : Vfs) (inode : Int) {f : Inode → Inode}
    (hf : ∀ i, ∃ more, (f i).children = i.children ++ more) :
    v.Grows (v.modifyInode inode f).2 := by
  rw [modifyInode_snd]
  refine ⟨rfl, fun i old hget => ?_⟩
  dsimp only
  rw [Hashtable.get_modify]
  split_ifs
  · obtain ⟨more, hmore⟩ := hf old
    exact ⟨f old, more, by rw [hget]; rfl, hmore⟩
  · exact (Grows.refl v).children i old hget

theorem Grows.setField (v : Vfs) (inode : Int) {f : Inode → Inode}
    (hf : ∀ i, (f i).children = i.children) : v.Grows (v.modifyInode inode f).2 :=
  .modifyInode v inode fun i => ⟨[], by rw [hf, List.append_nil]⟩

theorem Grows.createInode (ok : v.IdsOk) (type : InodeType) :
    v.Grows (v.createInode type).2 := by
  refine ⟨rfl, fun i inode hget => ⟨inode, [], ?_, (List.append_nil _).symm⟩⟩
  have hne : i ≠ v.inodeCounter := by
    rintro rfl
    rw [ok.inode.fresh] at hget
    cases hget
  exact (Hashtable.get_add_other _ _ hne).trans hget

theorem Grows.trans (h : v.Grows v') (h' : v'.Grows v'') : v.Grows v'' := by
  refine ⟨h'.root.trans h.root, fun i inode hget => ?_⟩
  obtain ⟨inode', more, hget', hmore⟩ := h.children i inode hget
  obtain ⟨inode'', more', hget'', hmore'⟩ := h'.children i inode' hget'
  exact ⟨inode'', more ++ more', hget'', by rw [hmore', hmore, List.append_assoc]⟩

theorem Grows.createFs (ok : v.IdsOk) (name : Chars) : v.Grows (v.createFs name).2 := by
  have h₁ := Grows.createInode ok .DIRECTORY
  have h₂ : v.Grows { (v.createInode .DIRECTORY).2 with
      fsCounter := v.fsCounter + 1
      fsTable := (v.fsTable.add v.fsCounter
        ⟨v.fsCounter, strCpyN name [] FS_NAME_MAX, v.inodeCounter⟩).2 } := ⟨h₁.root, h₁.children⟩
  exact h₂.trans (.setField _ v.inodeCounter fun _ => rfl)

theorem Grows.mount (w : Nat) (v : Vfs) (leftover : Nat → Chars) (inode : Int) (path : Chars) :
    v.Grows (v.mount w leftover inode path).2 := by
  rw [Vfs.mount]
  dsimp only
  split_ifs
  · exact .refl v
  · exact .modifyInode v _ fun _ => ⟨_, rfl⟩

theorem Grows.call (ok : v.IdsOk) (hc : c.Adds) (w : Nat) : v.Grows (v.call w c).2 := by
  cases c with
  | createInode type => exact .createInode ok type
  | createFs name => exact .createFs ok name
  | mount leftover inode path => exact .mount w v leftover inode path
  | mountChild inode child name => exact .modifyInode v inode fun _ => ⟨_, rfl⟩
  | setType inode type => exact .setField v inode fun _ => rfl
  | setVtable inode vtable => exact .setField v inode fun _ => rfl
  | setFs inode fs => exact .setField v inode fun _ => rfl
  | createFd | deleteInode | deleteFs | deleteFd | setRoot | fsSetName | fsSetRoot | fdSetInode
  | setOffset => exact hc.elim

/-- Adding to the VFS leaves every path that resolves where it was. -/
theorem lookups_stay (hr : Reachable (· = boot) (CallStep w) v) (hc : c.Adds)
    (hvalid : v.getInode path ≠ ID_INVALID) :
    (v.call w c).2.getInode path = v.getInode path := by
  rw [getInode_eq] at hvalid
  rw [getInode_eq, getInode_eq, (Grows.call (.run hr) hc w).lookup hvalid]

theorem root_built (w : Nat) :
    Reachable (· = boot) (BuildStep w) ((boot.createFs []).2.setRoot 0).2 := by
  apply Reachable.step (s := (boot.createFs []).2)
  · exact .step (.init rfl) ⟨.createFs [], trivial, rfl⟩
  · exact ⟨.setRoot 0, trivial, rfl⟩

/-- A root directory with one file, called `a`. -/
def mountedFile : Vfs :=
  ((((boot.createFs []).2.setRoot 0).2.createInode .NORMAL_FILE).2.mountChild 0 1 [0x61#8]).2

theorem mountedFile_built (w : Nat) : Reachable (· = boot) (BuildStep w) mountedFile := by
  apply Reachable.step (s := (((boot.createFs []).2.setRoot 0).2.createInode .NORMAL_FILE).2)
  · exact (root_built w).step ⟨.createInode .NORMAL_FILE, trivial, rfl⟩
  · exact ⟨.mountChild 0 1 [0x61#8], trivial, rfl⟩

theorem lookups_stay_mountedFile :
    (mountedFile.call 64 (.mount (fun _ => []) 0 [0x61#8])).2.getInode [0x61#8] = 1 := by
  have hr : Reachable (· = boot) (CallStep 64) mountedFile :=
    (mountedFile_built 64).mono fun _ _ ⟨c, _, h⟩ => ⟨c, h⟩
  exact (lookups_stay (c := .mount (fun _ => []) 0 [0x61#8]) hr trivial (by decide)).trans
    (by decide)

end Vfs
end Tupai
