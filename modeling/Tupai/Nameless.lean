import Tupai.Growth

namespace Tupai
open Lib
set_option autoImplicit true
namespace Vfs

/-- A failed `mount` changes nothing, a successful one appends one child to one inode, and a path
that names nothing is refused. -/
structure MountsAtomically (w : Nat) (v : Vfs) (leftover : Nat → Chars) (inode : Int)
    (path : Chars) : Prop where
  failed : (v.mount w leftover inode path).1 ≠ 0 → (v.mount w leftover inode path).2 = v
  mounted : (v.mount w leftover inode path).1 = 0 → ∃ dir old child,
    v.inodeTable.get dir = some old ∧
      (v.mount w leftover inode path).2.inodeTable.get dir =
        some { old with children := old.children ++ [child] } ∧
      ∀ i ≠ dir, (v.mount w leftover inode path).2.inodeTable.get i = v.inodeTable.get i
  named : elements path = [] → (v.mount w leftover inode path).1 ≠ 0

/-- Where the strings that the uninitialised buffer holds lead to in as many rounds as a `size_t`
can count. -/
def strayed (w : Nat) (v : Vfs) (leftover : Nat → Chars) : Int :=
  v.lookup ((List.range (2 ^ w - 1)).map leftover)

def mountTarget (w : Nat) (v : Vfs) (leftover : Nat → Chars) (path : Chars) : Int :=
  v.mountWalk path leftover (sizePred w (pathElementCount path)) 0 v.vfsRoot

variable {v : Vfs}

/-- All that `mount` does is to append a child to the inode that its walk ends at. -/
theorem mount_appends (w : Nat) (v : Vfs) (leftover : Nat → Chars) (inode : Int) (path : Chars) :
    ∃ child : InodeChild, v.mount w leftover inode path =
      if v.mountTarget w leftover path ≠ ID_INVALID ∧
        v.inodeTable.get (v.mountTarget w leftover path) ≠ none then
        (0, v.appendChild (v.mountTarget w leftover path) child)
      else (1, v) := by
  refine ⟨⟨inode, strCpyN (pathElementGet path (leftover (sizePred w (pathElementCount path)))
    (sizePred w (pathElementCount path))).2 [] FILENAME_MAX⟩, ?_⟩
  rw [mount, mountTarget]
  generalize v.mountWalk path leftover (sizePred w (pathElementCount path)) 0 v.vfsRoot = dir
  dsimp only
  by_cases hdir : dir = ID_INVALID
  · rw [if_pos hdir, if_neg fun hc => hc.1 hdir]
  · rw [if_neg hdir, modifyInode]
    cases hget : v.inodeTable.get dir with
    | none => rw [if_neg fun hc => hc.2 rfl]
    | some old => rw [if_pos ⟨hdir, Option.some_ne_none old⟩]; rfl

theorem get_appendChild (v : Vfs) (dir : Int) (child : InodeChild) (i : Int) :
    (v.appendChild dir child).inodeTable.get i = if i = dir then
      (v.inodeTable.get dir).map fun old => { old with children := old.children ++ [child] }
    else v.inodeTable.get i := by
  rw [appendChild, Hashtable.get_modify]
  split_ifs with he
  · rw [he]
  · rfl

/-- On a path without elements the buffer is never written. -/
theorem mountWalk_nameless (hpath : elements path = []) (v : Vfs) (leftover : Nat → Chars)
    (rounds i : Nat) (cinode : Int) : v.mountWalk path leftover rounds i cinode =
      (follow v.childOf cinode ((List.range' i rounds).map leftover)).getD ID_INVALID := by
  induction rounds generalizing i cinode with
  | zero => rfl
  | succ rounds ih =>
    have hkept : (pathElementGet path (leftover i) i).2 = leftover i := by
      rw [pathElementGet_eq, hpath]
      rfl
    rw [mountWalk_succ, hkept, List.range'_succ, List.map_cons, follow_cons, childOf]
    split_ifs with hc
    · rfl
    · exact ih _ _

theorem mountTarget_nameless (hpath : elements path = []) (w : Nat) (v : Vfs)
    (leftover : Nat → Chars) : v.mountTarget w leftover path = v.strayed w leftover := by
  have hcount : pathElementCount path = 0 := by
    rw [pathElementCount_eq, hpath]
    rfl
  rw [mountTarget, hcount, sizePred, if_pos rfl, mountWalk_nameless hpath, strayed, lookup,
    List.range_eq_range']

/-- `mount` is atomic, and it refuses a path without elements exactly when the walk along the
leftover strings ends at no inode. -/
theorem mountsAtomically_iff (w : Nat) (v : Vfs) (leftover : Nat → Chars) (inode : Int)
    (path : Chars) : v.MountsAtomically w leftover inode path ↔
      (elements path = [] → v.strayed w leftover = ID_INVALID ∨
        v.inodeTable.get (v.strayed w leftover) = none) := by
  obtain ⟨child, hmount⟩ := v.mount_appends w leftover inode path
  have hiff : (v.mount w leftover inode path).1 = 0 ↔ v.mountTarget w leftover path ≠ ID_INVALID ∧
      v.inodeTable.get (v.mountTarget w leftover path) ≠ none := by
    rw [hmount]
    split_ifs with hdir
    · exact iff_of_true rfl hdir
    · exact iff_of_false Int.one_ne_zero hdir
  constructor
  · intro h hpath
    have hnamed := mt hiff.2 (h.named hpath)
    rwa [mountTarget_nameless hpath, not_and_or, not_not, not_not] at hnamed
  · intro h
    constructor
    · intro hfailed
      rw [hmount, if_neg (mt hiff.2 hfailed)]
    · intro hmounted
      have hdir := hiff.1 hmounted
      obtain ⟨old, hold⟩ := Option.ne_none_iff_exists'.1 hdir.2
      rw [hmount, if_pos hdir]
      refine ⟨_, old, child, hold, ?_, fun i hi => ?_⟩
      · rw [get_appendChild, if_pos rfl, hold]
        rfl
      · rw [get_appendChild, if_neg hi]
    · intro hpath
      rw [Ne, hiff, mountTarget_nameless hpath, not_and_or, not_not, not_not]
      exact h hpath

/-- A root directory that is mounted in itself. -/
def loopedRoot : Vfs := (((boot.createFs []).2.setRoot 0).2.mountChild 0 0 [0x61#8]).2

theorem loopedRoot_built (w : Nat) : Reachable (· = boot) (BuildStep w) loopedRoot :=
  (root_built w).step ⟨.mountChild 0 0 [0x61#8], trivial, rfl⟩

/-- With the name of the loop in the buffer the empty path is accepted. -/
theorem not_mountsAtomically : Reachable (· = boot) (BuildStep 32) loopedRoot ∧
    ¬ loopedRoot.MountsAtomically 32 (fun _ => [0x61#8]) 0 [] := by
  refine ⟨loopedRoot_built 32, fun h => h.named rfl ?_⟩
  have hstep : loopedRoot.childOf 0 [0x61#8] = some 0 := by decide
  have hroot : loopedRoot.vfsRoot = 0 := rfl
  have hget : loopedRoot.inodeTable.get 0 ≠ none := by
    rw [← Option.isSome_iff_ne_none]
    decide
  have hloop : follow loopedRoot.childOf 0
      ((List.range (2 ^ 32 - 1)).map fun _ => [0x61#8]) = some 0 := by
    apply follow_loops
    intro a ha
    obtain ⟨_, _, rfl⟩ := List.mem_map.1 ha
    exact hstep
  have hstray : loopedRoot.strayed 32 (fun _ => [0x61#8]) = 0 := by
    rw [strayed, lookup, hroot, hloop]
    rfl
  obtain ⟨child, hmount⟩ := loopedRoot.mount_appends 32 (fun _ => [0x61#8]) 0 []
  rw [hmount, mountTarget_nameless rfl, hstray, if_pos ⟨by decide, hget⟩]

end Vfs
end Tupai
