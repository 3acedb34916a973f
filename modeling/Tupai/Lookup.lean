import Tupai.Lib.Walk
import Tupai.Vfs

namespace Tupai
open Lib
set_option autoImplicit true

/-- The elements of a path as `path_element_get` hands them out. -/
def names (path : Chars) : List Chars := (elements path).map fun e => e.take (FILENAME_MAX - 1)

theorem length_names (path : Chars) : (names path).length = pathElementCount path := by
  rw [names, List.length_map, pathElementCount_eq]

/-- A name that `path_element_get` can hand out. -/
structure Name (name : Chars) : Prop where
  ne_nil : name ≠ []
  chars : ∀ c ∈ name, c ≠ 0#8
  length_le : name.length ≤ FILENAME_MAX - 1

theorem name_of_mem (h : name ∈ names path) : Name name := by
  obtain ⟨e, he, rfl⟩ := List.mem_map.1 h
  refine ⟨?_, ?_, List.length_take_le _ _⟩
  · rw [Ne, List.take_eq_nil_iff]
    exact not_or_intro (by decide) (elements_ne_nil he)
  · exact fun c hc => (elements_chars he c (List.mem_of_mem_take hc)).1

theorem Name.cstr_eq (h : Name name) : cstr name = name := cstr_eq_self h.chars

/-- The string that a buffer holds after `path_element_get`. -/
theorem cstr_element (buff : Chars) (h : (names path)[i]? = some name) :
    cstr (pathElementGet path buff i).2 = name := by
  rw [names, List.getElem?_map] at h
  obtain ⟨e, he, rfl⟩ := Option.map_eq_some_iff.1 h
  exact cstr_pathElementGet buff he

theorem findChild_congr (children : List InodeChild) (hne : cstr a ≠ []) (h : cstr a = cstr b) :
    findChild children a = findChild children b := by
  have he (s : Chars) : strEqual s a = strEqual s b := by
    rw [Bool.eq_iff_iff, strEqual_iff_right hne, strEqual_iff_right (h ▸ hne), h]
  induction children with
  | nil => rfl
  | cons child children ih => rw [findChild, findChild, he, ih]

namespace Vfs

/-- One step of a lookup, by `inode_ptr_t::get_child`. -/
def childOf (v : Vfs) (inode : Int) (name : Chars) : Option Int :=
  if v.getChild inode name = ID_INVALID then none else some (v.getChild inode name)

/-- The lookup that starts at the root, takes one step for each name, and stays invalid once a
step fails. -/
def lookup (v : Vfs) (names : List Chars) : Int :=
  (follow v.childOf v.vfsRoot names).getD ID_INVALID

def appendChild (v : Vfs) (dir : Int) (child : InodeChild) : Vfs :=
  { v with inodeTable := v.inodeTable.modify dir fun i =>
      { i with children := i.children ++ [child] } }

/-- The three walks through the inodes agree. -/
structure WalksAgree (w : Nat) (v : Vfs) (path : Chars) : Prop where
  getInode : v.getInode path = v.lookup (names path)
  mount : ∀ init last, names path = init ++ [last] → ∀ leftover inode,
    v.mount w leftover inode path =
      if v.lookup init ≠ ID_INVALID ∧ v.inodeTable.get (v.lookup init) ≠ none then
        (0, v.appendChild (v.lookup init) ⟨inode, last ++ [0#8]⟩)
      else (1, v)

variable {v : Vfs}

theorem getChild_congr (v : Vfs) (inode : Int) (hne : cstr a ≠ []) (h : cstr a = cstr b) :
    v.getChild inode a = v.getChild inode b := by
  rw [getChild, getChild]
  cases v.inodeTable.get inode with
  | none => rfl
  | some i => exact findChild_congr i.children hne h

/-- The loops of `get_inode` and `mount` differ only in what the buffer held before. -/
theorem walk_eq_mountWalk (v : Vfs) (path : Chars) (rounds i : Nat) (cinode : Int) :
    v.walk path rounds i cinode = v.mountWalk path (fun _ => []) rounds i cinode := by
  induction rounds generalizing i cinode with
  | zero => rfl
  | succ rounds ih =>
    rw [walk_succ, mountWalk_succ]
    simp only [ih]

theorem mountWalk_eq (v : Vfs) (path : Chars) (leftover : Nat → Chars) (cinode : Int)
    (h : i + rounds ≤ (names path).length) :
    v.mountWalk path leftover rounds i cinode =
      (follow v.childOf cinode (((names path).drop i).take rounds)).getD ID_INVALID := by
  induction rounds generalizing i cinode with
  | zero => rfl
  | succ rounds ih =>
    have hi : i < (names path).length := by omega
    have hname := cstr_element (leftover i) (List.getElem?_eq_getElem hi)
    have hmem := name_of_mem (List.getElem_mem hi)
    have hstep : v.getChild cinode (pathElementGet path (leftover i) i).2 =
        v.getChild cinode (names path)[i] :=
      v.getChild_congr cinode (hname ▸ hmem.ne_nil) (hname.trans hmem.cstr_eq.symm)
    rw [mountWalk_succ, List.drop_eq_getElem_cons hi, List.take_succ_cons, follow_cons, childOf,
      hstep]
    split_ifs with hc
    · rfl
    · exact ih _ (by omega)

theorem getInode_eq (v : Vfs) (path : Chars) : v.getInode path = v.lookup (names path) := by
  have hlen := length_names path
  rw [getInode, walk_eq_mountWalk, mountWalk_eq v path _ _ (by omega), ← hlen, List.drop_zero,
    List.take_length, lookup]

theorem mount_eq (w : Nat) (v : Vfs) (leftover : Nat → Chars) (inode : Int)
    (h : names path = init ++ [last]) :
    v.mount w leftover inode path =
      if v.lookup init ≠ ID_INVALID ∧ v.inodeTable.get (v.lookup init) ≠ none then
        (0, v.appendChild (v.lookup init) ⟨inode, last ++ [0#8]⟩)
      else (1, v) := by
  have hlen : pathElementCount path = init.length + 1 := by
    rw [← length_names, h, List.length_append, List.length_singleton]
  have hlast : (names path)[init.length]? = some last := by
    rw [h, List.getElem?_concat_length]
  have hname := name_of_mem (List.mem_of_getElem? hlast)
  have hwalk : v.mountWalk path leftover init.length 0 v.vfsRoot = v.lookup init := by
    rw [mountWalk_eq v path leftover _ (by rw [length_names]; omega), h, List.drop_zero,
      List.take_left, lookup]
  have hstored : strCpyN (pathElementGet path (leftover init.length) init.length).2 []
      FILENAME_MAX = last ++ [0#8] := by
    rw [strCpyN_eq, cstr_element _ hlast, List.take_of_length_le hname.length_le]
    rfl
  rw [mount, hlen, sizePred, if_neg (Nat.succ_ne_zero _), Nat.add_sub_cancel]
  dsimp only
  rw [hwalk, hstored]
  by_cases hdir : v.lookup init = ID_INVALID
  · rw [if_pos hdir, if_neg fun hc => hc.1 hdir]
  · rw [if_neg hdir, modifyInode]
    cases hget : v.inodeTable.get (v.lookup init) with
    | none => rw [if_neg fun hc => hc.2 rfl]
    | some dir => rw [if_pos ⟨hdir, Option.some_ne_none dir⟩]; rfl

/-- `get_inode` and `mount` follow `get_child` through the elements of a path, `mount` through all
but the last. -/
theorem walks_agree (w : Nat) (v : Vfs) (path : Chars) : v.WalksAgree w path :=
  ⟨v.getInode_eq path, fun _ _ h leftover inode => v.mount_eq w leftover inode h⟩

end Vfs
end Tupai
