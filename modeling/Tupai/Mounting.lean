import Tupai.Growth

namespace Tupai
open Lib
set_option autoImplicit true
namespace Vfs

/-- The child of a directory that a lookup of the name finds. -/
def firstChild (v : Vfs) (dir : Int) (name : Chars) : Option InodeChild :=
  (v.inodeTable.get dir).bind fun i => i.children.find? (strEqual ·.name name)

/-- The directory has no child of that name, or the first one is the inode itself. -/
def Unrivalled (v : Vfs) (dir : Int) (name : Chars) (inode : Int) : Prop :=
  ∀ child, v.firstChild dir name = some child → child.inode = inode

/-- What was mounted is found exactly when nothing was there to be found before it. -/
structure Mounting (w : Nat) (v : Vfs) (inode : Int) : Prop where
  mount : ∀ leftover path init last, names path = init ++ [last] →
    (v.mount w leftover inode path).1 = 0 →
    ((v.mount w leftover inode path).2.getInode path = inode ↔
      v.Unrivalled (v.lookup init) last inode)
  mountChild : ∀ dir name, cstr name ≠ [] → (cstr name).length < FILENAME_MAX →
    (v.mountChild dir inode name).1 = 0 →
    ((v.mountChild dir inode name).2.getChild dir name = inode ↔ v.Unrivalled dir name inode)

variable {v : Vfs}

/-- The new child is found unless an older one has its name. -/
theorem getChild_appendChild (hdir : v.inodeTable.get dir ≠ none)
    (hname : strEqual child.name name = true) :
    (v.appendChild dir child).getChild dir name =
      ((v.firstChild dir name).map InodeChild.inode).getD child.inode := by
  obtain ⟨i, hget⟩ := Option.ne_none_iff_exists'.1 hdir
  have hnew : (v.appendChild dir child).inodeTable.get dir =
      some { i with children := i.children ++ [child] } := by
    rw [appendChild, Hashtable.get_modify, if_pos rfl, hget]
    rfl
  rw [getChild, hnew, firstChild, hget]
  dsimp only
  rw [findChild_eq, List.find?_append, Option.bind_some]
  cases i.children.find? (strEqual ·.name name) with
  | none => rw [List.find?_cons, hname]; rfl
  | some old => rfl

theorem getChild_appendChild_iff (hdir : v.inodeTable.get dir ≠ none)
    (hname : strEqual child.name name = true) :
    (v.appendChild dir child).getChild dir name = child.inode ↔
      v.Unrivalled dir name child.inode := by
  rw [getChild_appendChild hdir hname, Unrivalled]
  cases v.firstChild dir name with
  | none => simp
  | some old => simp

theorem Grows.appendChild (v : Vfs) (dir : Int) (child : InodeChild) :
    v.Grows (v.appendChild dir child) := by
  rw [Vfs.appendChild, ← modifyInode_snd]
  exact .modifyInode v dir fun _ => ⟨[child], rfl⟩

theorem lookup_snoc (hinit : v.lookup init ≠ ID_INVALID) (last : Chars) :
    v.lookup (init ++ [last]) = v.getChild (v.lookup init) last := by
  rw [lookup] at hinit
  rw [lookup, lookup, follow_snoc]
  cases hf : follow v.childOf v.vfsRoot init with
  | none =>
    rw [hf] at hinit
    exact absurd rfl hinit
  | some dir =>
    rw [Option.bind_some, Option.getD_some, childOf]
    split_ifs with hc
    · exact hc.symm
    · rfl

theorem mount_found_iff (w : Nat) (leftover : Nat → Chars) (hpath : names path = init ++ [last])
    (h : (v.mount w leftover inode path).1 = 0) :
    (v.mount w leftover inode path).2.getInode path = inode ↔
      v.Unrivalled (v.lookup init) last inode := by
  have hlast : Name last := name_of_mem (by rw [hpath]; simp)
  have hne : cstr last ≠ [] := by
    rw [hlast.cstr_eq]
    exact hlast.ne_nil
  rw [mount_eq w v leftover inode hpath] at h ⊢
  by_cases hdir : v.lookup init ≠ ID_INVALID ∧ v.inodeTable.get (v.lookup init) ≠ none
  · rw [if_pos hdir]
    have hsame := (Grows.appendChild v (v.lookup init) ⟨inode, last ++ [0#8]⟩).lookup hdir.1
    have hfound := hdir.1
    rw [← hsame] at hfound
    have hname : strEqual (last ++ [0#8]) last = true := by
      rw [strEqual_iff_right hne, cstr_append_zero hlast.chars, hlast.cstr_eq]
    rw [getInode_eq, hpath, lookup_snoc hfound, hsame]
    exact getChild_appendChild_iff hdir.2 hname
  · rw [if_neg hdir] at h
    cases h

theorem mountChild_found_iff (hne : cstr name ≠ []) (hlen : (cstr name).length < FILENAME_MAX)
    (h : (v.mountChild dir inode name).1 = 0) :
    (v.mountChild dir inode name).2.getChild dir name = inode ↔ v.Unrivalled dir name inode := by
  have hdir : v.inodeTable.get dir ≠ none := by
    intro hn
    rw [mountChild, modifyInode, hn] at h
    cases h
  have hname : strEqual (strCpyN name [] FILENAME_MAX) name = true := by
    rw [strEqual_iff_right hne, cstr_strCpyN, List.take_of_length_le (Nat.le_sub_one_of_lt hlen)]
  have hmount : (v.mountChild dir inode name).2 =
      v.appendChild dir ⟨inode, strCpyN name [] FILENAME_MAX⟩ := modifyInode_snd ..
  rw [hmount]
  exact getChild_appendChild_iff hdir hname

/-- `mount` and `mount_child` append, and a lookup takes the first match. -/
theorem mounting (w : Nat) (v : Vfs) (inode : Int) : v.Mounting w inode where
  mount := fun leftover _ _ _ => mount_found_iff w leftover
  mountChild := fun _ _ => mountChild_found_iff

theorem mounting_mountedFile :
    (mountedFile.mount 64 (fun _ => []) 1 [0x62#8]).2.getInode [0x62#8] = 1 ∧
    (mountedFile.mountChild 0 1 [0x62#8]).2.getChild 0 [0x62#8] = 1 :=
  ⟨((mounting 64 mountedFile 1).mount _ _ [] [0x62#8] rfl rfl).2 nofun,
    ((mounting 64 mountedFile 1).mountChild 0 [0x62#8] (by decide) (by decide) rfl).2 nofun⟩

/-- Under a name that is taken, and under one that is cut off, what was mounted is not found. -/
theorem mounting_not_found : Reachable (· = boot) (BuildStep 64) mountedFile ∧
    (mountedFile.mount 64 (fun _ => []) 0 [0x61#8]).1 = 0 ∧
    (mountedFile.mount 64 (fun _ => []) 0 [0x61#8]).2.getInode [0x61#8] = 1 ∧
    (mountedFile.mountChild 0 0 [0x61#8]).1 = 0 ∧
    (mountedFile.mountChild 0 0 [0x61#8]).2.getChild 0 [0x61#8] = 1 ∧
    (mountedFile.mountChild 0 1 (List.replicate 256 0x62#8)).1 = 0 ∧
    (mountedFile.mountChild 0 1 (List.replicate 256 0x62#8)).2.getChild 0
      (List.replicate 256 0x62#8) = ID_INVALID :=
  ⟨mountedFile_built 64, by decide, by decide, by decide, by decide, by decide +kernel,
    by decide +kernel⟩

end Vfs
end Tupai
