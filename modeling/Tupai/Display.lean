import Mathlib.Order.Filter.AtTopBot.Basic
import Mathlib.Order.Filter.Finite
import Tupai.Growth
import Tupai.Lib.Traversal

namespace Tupai
open Lib Relation
set_option autoImplicit true

structure DisplayLine where
  depth : Nat
  name : Chars
  type : InodeType
deriving DecidableEq

/-- The strings `"|--"` and `"|  "`. -/
def indentation (depth : Nat) : Chars :=
  (List.range depth).flatMap fun i =>
    if i = depth - 1 then [0x7C#8, 0x2D#8, 0x2D#8] else [0x7C#8, 0x20#8, 0x20#8]

def DisplayLine.text (line : DisplayLine) : Chars :=
  indentation line.depth ++ line.name ++ (if line.type = .DIRECTORY then [SLASH] else []) ++
    [0x0A#8]

def DisplayLine.key (line : DisplayLine) : Nat × Chars := (line.depth, line.name)

namespace Vfs

def getChildren (v : Vfs) (inode : Int) : Nat :=
  match v.inodeTable.get inode with
  | some inode => inode.children.length
  | none => 0

/-- It has no meaning for an index beyond the list. -/
def getNthChild (v : Vfs) (inode : Int) (n : Nat) : Int :=
  match v.inodeTable.get inode with
  | some inode => (inode.children[n]?.map InodeChild.inode).getD ID_INVALID
  | none => ID_INVALID

/-- The result is the pair of the error code and `rname`. -/
def getChildName (v : Vfs) (inode child : Int) (rname : Chars) (n : Nat) : Int × Chars :=
  let rname := 0#8 :: rname.tail
  match v.inodeTable.get inode with
  | some inode =>
    match inode.children.find? (·.inode = child) with
    | some found => (0, strCpyN found.name rname n)
    | none => (1, rname)
  | none => (1, rname)

/-- The loop of `vfs_print_inode`, from the `i`-th child on. -/
def printChildren (print : Int → Chars → Option (List DisplayLine)) (v : Vfs) (inode : Int) :
    (left i : Nat) → Option (List DisplayLine)
  | 0, _ => some []
  | left + 1, i => do
    let ninode := v.getNthChild inode i
    let name := (v.getChildName inode ninode [] FILENAME_MAX).2
    let below ← print ninode name
    let after ← printChildren print v inode left (i + 1)
    return below ++ after

/-- The lines that are logged, unless the calls are nested deeper than the fuel allows. -/
def vfsPrintInode (v : Vfs) :
    (fuel : Nat) → (inode : Int) → (name : Chars) → (depth : Nat) → Option (List DisplayLine)
  | 0, _, _, _ => none
  | fuel + 1, inode, name, depth =>
    if inode = ID_INVALID then some []
    else do
      let line : DisplayLine := ⟨depth, cstr name, (v.getType inode).2⟩
      let below ← printChildren
        (fun ninode name => vfsPrintInode v fuel ninode name (depth + 1)) v inode
        (v.getChildren inode) 0
      return line :: below

def childrenOf (v : Vfs) (inode : Int) : List InodeChild :=
  match v.inodeTable.get inode with
  | some inode => inode.children
  | none => []

/-- The entries of a directory, each with its own name. -/
def entries (v : Vfs) (inode : Int) : List (Int × Chars) :=
  (v.childrenOf inode).map fun e => (e.inode, cstr e.name)

/-- An inode, unless there is none. -/
def tree (inode : Int) (name : Chars) : List (Int × Chars) :=
  if inode = ID_INVALID then [] else [(inode, name)]

/-- `vfs_print_inode` ends, and logs the preorder traversal of the lists of children. -/
def Displays (v : Vfs) : Prop :=
  ∃ fuel lines, v.vfsPrintInode fuel v.vfsRoot [] 0 = some lines ∧
    Traverses v.entries 0 (tree v.vfsRoot []) (lines.map DisplayLine.key)

/-- The root, and all that is below it. -/
def Reaches (v : Vfs) (i : Int) : Prop := ReflTransGen (Child v.entries) i v.vfsRoot

/-- No inode is below itself, all entries have an inode, and those for one inode in one directory
have one name. -/
structure Displayable (v : Vfs) : Prop where
  acyclic : ∀ i, v.Reaches i → ¬ TransGen (Child v.entries) i i
  valid : ∀ i, v.Reaches i → ∀ e ∈ v.childrenOf i, e.inode ≠ ID_INVALID
  named : ∀ i, v.Reaches i → ∀ e ∈ v.childrenOf i, ∀ e' ∈ v.childrenOf i,
    e.inode = e'.inode → cstr e.name = cstr e'.name

/-- The name that is found for an inode. -/
def shownName (children : List InodeChild) (inode : Int) : Chars :=
  ((children.find? (·.inode = inode)).map fun e => cstr e.name).getD []

/-- What is printed of a directory. -/
def shown (v : Vfs) (inode : Int) : List (Int × Chars) :=
  (v.childrenOf inode).flatMap fun e => tree e.inode (shownName (v.childrenOf inode) e.inode)

def NamesFit (v : Vfs) : Prop :=
  v.inodeTable.All fun inode => ∀ e ∈ inode.children, (cstr e.name).length < FILENAME_MAX

variable {v : Vfs}

theorem getChildren_eq (v : Vfs) (inode : Int) :
    v.getChildren inode = (v.childrenOf inode).length := by
  rw [getChildren, childrenOf]
  cases v.inodeTable.get inode <;> rfl

theorem getNthChild_eq (h : (v.childrenOf inode)[n]? = some e) :
    v.getNthChild inode n = e.inode := by
  rw [childrenOf] at h
  rw [getNthChild]
  cases hget : v.inodeTable.get inode with
  | none =>
    rw [hget] at h
    cases h
  | some i =>
    rw [hget] at h
    dsimp only at h ⊢
    rw [h]
    rfl

theorem NamesFit.mem (h : v.NamesFit) (he : e ∈ v.childrenOf inode) :
    (cstr e.name).length < FILENAME_MAX := by
  rw [childrenOf] at he
  cases hget : v.inodeTable.get inode with
  | none =>
    rw [hget] at he
    cases he
  | some i =>
    rw [hget] at he
    exact h.get hget e he

/-- The name that is found is that of the first entry with the inode. -/
theorem cstr_getChildName (h : v.NamesFit) (inode child : Int) (rname : Chars) :
    cstr (v.getChildName inode child rname FILENAME_MAX).2 =
      shownName (v.childrenOf inode) child := by
  have hfit : ∀ e ∈ v.childrenOf inode, (cstr e.name).length < FILENAME_MAX := fun _ => h.mem
  rw [getChildName, shownName]
  rw [childrenOf] at hfit ⊢
  cases hget : v.inodeTable.get inode with
  | none => rfl
  | some i =>
    rw [hget] at hfit
    dsimp only at hfit ⊢
    cases hfind : i.children.find? (·.inode = child) with
    | none => rfl
    | some found =>
      have hlen := hfit found (List.mem_of_find?_eq_some hfind)
      dsimp only
      rw [cstr_strCpyN, List.take_of_length_le (Nat.le_sub_one_of_lt hlen)]
      rfl

section soundness

variable {print : Int → Chars → Option (List DisplayLine)}

theorem printChildren_traverses (hfit : v.NamesFit)
    (hprint : ∀ ninode name lines, print ninode name = some lines →
      Traverses v.shown d (tree ninode (cstr name)) (lines.map DisplayLine.key))
    (hend : i + left = (v.childrenOf inode).length)
    (h : printChildren print v inode left i = some lines) :
    Traverses v.shown d (((v.childrenOf inode).drop i).flatMap fun e =>
      tree e.inode (shownName (v.childrenOf inode) e.inode)) (lines.map DisplayLine.key) := by
  induction left generalizing i lines with
  | zero =>
    rw [List.drop_of_length_le (by omega)]
    cases h
    exact .nil
  | succ left ih =>
    have hi : i < (v.childrenOf inode).length := by omega
    rw [printChildren] at h
    obtain ⟨below, hbelow, h⟩ := Option.bind_eq_some_iff.1 h
    obtain ⟨after, hafter, h⟩ := Option.bind_eq_some_iff.1 h
    obtain rfl := Option.some.inj h
    have hfirst := hprint _ _ _ hbelow
    rw [cstr_getChildName hfit, getNthChild_eq (List.getElem?_eq_getElem hi)] at hfirst
    rw [List.drop_eq_getElem_cons hi, List.flatMap_cons, List.map_append]
    exact hfirst.append (ih (by omega) hafter)

/-- What is logged is a traversal, with the names that are found. -/
theorem vfsPrintInode_traverses (hfit : v.NamesFit)
    (h : v.vfsPrintInode fuel inode name d = some lines) :
    Traverses v.shown d (tree inode (cstr name)) (lines.map DisplayLine.key) := by
  induction fuel generalizing inode name d lines with
  | zero => cases h
  | succ fuel ih =>
    rw [vfsPrintInode] at h
    rw [tree]
    split_ifs at h ⊢ with hinode
    · cases h
      exact .nil
    · obtain ⟨below, hbelow, h⟩ := Option.bind_eq_some_iff.1 h
      obtain rfl := Option.some.inj h
      rw [getChildren_eq] at hbelow
      have hchildren := printChildren_traverses hfit (fun _ _ _ hprint => ih hprint)
        (Nat.zero_add _) hbelow
      have hline := Traverses.cons (l := cstr name) hchildren .nil
      rwa [List.append_nil] at hline

end soundness

theorem printChildren_ends (print : Int → Chars → Option (List DisplayLine))
    (hprint : ∀ e ∈ v.childrenOf inode, ∀ name, ∃ lines, print e.inode name = some lines)
    (hend : i + left ≤ (v.childrenOf inode).length) :
    ∃ lines, printChildren print v inode left i = some lines := by
  induction left generalizing i with
  | zero => exact ⟨[], rfl⟩
  | succ left ih =>
    have hi : i < (v.childrenOf inode).length := by omega
    obtain ⟨below, hbelow⟩ := hprint _ (List.getElem_mem hi)
      (v.getChildName inode (v.getNthChild inode i) [] FILENAME_MAX).2
    obtain ⟨after, hafter⟩ := ih (i := i + 1) (by omega)
    rw [← getNthChild_eq (List.getElem?_eq_getElem hi)] at hbelow
    refine ⟨below ++ after, ?_⟩
    rw [printChildren, hbelow, hafter]
    rfl

/-- Below a node that is well-founded the calls are nested only so deep. -/
theorem vfsPrintInode_ends (h : Acc (Child v.entries) inode) :
    ∃ depth, ∀ fuel ≥ depth, ∀ name d, ∃ lines,
      v.vfsPrintInode fuel inode name d = some lines := by
  induction h with
  | intro inode _ ih =>
    have hchildren : ∀ e ∈ v.childrenOf inode, ∀ᶠ fuel in Filter.atTop, ∀ name d, ∃ lines,
        v.vfsPrintInode fuel e.inode name d = some lines := by
      intro e he
      refine Filter.eventually_atTop.2 (ih e.inode ?_)
      rw [Child, entries, List.map_map]
      exact List.mem_map_of_mem he
    obtain ⟨depth, hdepth⟩ := Filter.eventually_atTop.1
      ((Filter.eventually_all_finite (List.finite_toSet _)).2 hchildren)
    refine ⟨depth + 1, fun fuel hfuel name d => ?_⟩
    obtain ⟨fuel, rfl⟩ := Nat.exists_eq_succ_of_ne_zero (Nat.ne_zero_of_lt hfuel)
    rw [vfsPrintInode]
    split_ifs with hinode
    · exact ⟨[], rfl⟩
    · have hprint : ∀ e ∈ v.childrenOf inode, ∀ name, ∃ lines,
          v.vfsPrintInode fuel e.inode name (d + 1) = some lines := fun e he name =>
        hdepth fuel (Nat.le_of_succ_le_succ hfuel) e he name (d + 1)
      have hend : 0 + v.getChildren inode ≤ (v.childrenOf inode).length := by
        rw [getChildren_eq, Nat.zero_add]
      obtain ⟨below, hbelow⟩ := printChildren_ends
        (fun ninode name => v.vfsPrintInode fuel ninode name (d + 1)) hprint hend
      rw [hbelow]
      exact ⟨_, rfl⟩

theorem trees_sublist (name : Int → Chars) (children : List InodeChild) :
    ((children.flatMap fun e => tree e.inode (name e.inode)).map Prod.fst).Sublist
      (children.map InodeChild.inode) := by
  induction children with
  | nil => exact List.Sublist.refl _
  | cons e children ih =>
    rw [List.flatMap_cons, List.map_append, List.map_cons, tree]
    split_ifs with he
    · exact ih.cons _
    · exact ih.cons_cons _

theorem trees_eq_iff (name : Int → Chars) (children : List InodeChild) :
    (children.flatMap fun e => tree e.inode (name e.inode)) =
        children.map (fun e => (e.inode, cstr e.name)) ↔
      ∀ e ∈ children, e.inode ≠ ID_INVALID ∧ name e.inode = cstr e.name := by
  induction children with
  | nil => exact iff_of_true rfl (List.forall_mem_nil _)
  | cons e children ih =>
    rw [List.flatMap_cons, List.map_cons, List.forall_mem_cons, tree]
    split_ifs with he
    · refine iff_of_false (fun hsame => ?_) fun h => h.1.1 he
      have hlen := congrArg List.length hsame
      have hle := (trees_sublist name children).length_le
      rw [List.nil_append, List.length_cons, List.length_map] at hlen
      rw [List.length_map, List.length_map] at hle
      omega
    · rw [List.singleton_append, List.cons.injEq, Prod.mk.injEq, ih, and_iff_right rfl,
        and_iff_right he]

theorem shown_thins (v : Vfs) : Thins v.shown v.entries := by
  intro inode
  rw [entries, List.map_map]
  exact trees_sublist _ _

theorem shownName_mem (he : e ∈ children) :
    ∃ e' ∈ children, e'.inode = e.inode ∧ shownName children e.inode = cstr e'.name := by
  have hsome : (children.find? (·.inode = e.inode)).isSome := by
    rw [List.find?_isSome]
    exact ⟨e, he, decide_eq_true rfl⟩
  obtain ⟨e', hfind⟩ := Option.isSome_iff_exists.1 hsome
  refine ⟨e', List.mem_of_find?_eq_some hfind, ?_, ?_⟩
  · have hfound := List.find?_some hfind
    exact of_decide_eq_true hfound
  · rw [shownName, hfind]
    rfl

/-- A directory is printed as it is when all of its entries have an inode, and one inode has only
one name. -/
theorem shown_eq_iff (v : Vfs) (inode : Int) : v.shown inode = v.entries inode ↔
    (∀ e ∈ v.childrenOf inode, e.inode ≠ ID_INVALID) ∧
      ∀ e ∈ v.childrenOf inode, ∀ e' ∈ v.childrenOf inode,
        e.inode = e'.inode → cstr e.name = cstr e'.name := by
  rw [shown, entries, trees_eq_iff]
  constructor
  · intro h
    refine ⟨fun e he => (h e he).1, fun e he e' he' hsame => ?_⟩
    rw [← (h e he).2, ← (h e' he').2, hsame]
  · rintro ⟨hvalid, hnamed⟩ e he
    obtain ⟨e', he', hsame, hname⟩ := shownName_mem he
    exact ⟨hvalid e he, hname.trans (hnamed e' he' e he hsame)⟩

theorem finite_children (v : Vfs) : {m | ∃ n, Child v.entries m n}.Finite := by
  refine ((Set.finite_lt_nat HASHTABLE_CAPACITY).biUnion fun i _ =>
    List.finite_toSet ((v.inodeTable.data i).children.map InodeChild.inode)).subset ?_
  rintro m ⟨n, hm⟩
  rw [Child, entries, List.map_map, childrenOf] at hm
  cases hget : v.inodeTable.get n with
  | none =>
    rw [hget] at hm
    cases hm
  | some inode =>
    rw [hget] at hm
    obtain ⟨i, hs, rfl⟩ := Option.map_eq_some_iff.1 hget
    obtain ⟨hi, -, -⟩ := Hashtable.slot_some hs
    exact Set.mem_biUnion hi hm

theorem NamesFit.createInode (h : v.NamesFit) (type : InodeType) :
    (v.createInode type).2.NamesFit :=
  Hashtable.All.add h fun _ he => absurd he List.not_mem_nil

theorem NamesFit.appendChild (h : v.NamesFit) (dir child : Int) (name : Chars) :
    (v.modifyInode dir fun i => { i with
      children := i.children ++ [⟨child, strCpyN name [] FILENAME_MAX⟩] }).2.NamesFit := by
  rw [modifyInode_snd]
  refine Hashtable.All.modify h fun inode hfit => ?_
  rw [List.forall_mem_append, List.forall_mem_singleton]
  refine ⟨hfit, ?_⟩
  rw [cstr_strCpyN, List.length_take]
  exact Nat.lt_of_le_of_lt (Nat.min_le_left ..) (by decide)

theorem NamesFit.setFs (h : v.NamesFit) (inode fs : Int) : (v.setFs inode fs).2.NamesFit := by
  rw [Vfs.setFs, modifyInode_snd]
  exact Hashtable.All.modify h fun _ hfit => hfit

theorem NamesFit.createFs (h : v.NamesFit) (name : Chars) : (v.createFs name).2.NamesFit := by
  apply NamesFit.setFs
  exact h.createInode .DIRECTORY

theorem NamesFit.run (hr : Reachable (· = boot) (BuildStep w) v) : v.NamesFit := by
  apply hr.invariant
  · rintro _ rfl
    exact Hashtable.zeroed_unused.all
  · rintro v _ h ⟨c, hc, rfl⟩
    cases c with
    | createInode type => exact h.createInode type
    | createFs name => exact h.createFs name
    | setRoot root => exact h
    | mountChild inode child name => exact h.appendChild inode child name
    | mount leftover inode path =>
      rw [call, Vfs.mount]
      dsimp only
      split_ifs
      · exact h
      · exact h.appendChild _ _ _
    | createFd | deleteInode | deleteFs | deleteFd | setType | setVtable | setFs | fsSetName
    | fsSetRoot | fdSetInode | setOffset => exact hc.elim

theorem childrenOf_invalid (ok : v.IdsOk) : v.childrenOf ID_INVALID = [] := by
  have hnone : v.inodeTable.get ID_INVALID = none := by
    by_contra hsome
    exact absurd (ok.inode.keys ID_INVALID hsome).1 (by decide)
  rw [childrenOf, hnone]

theorem visited_root_iff (v : Vfs) (i : Int) :
    Visited v.entries [(v.vfsRoot, [])] i ↔ v.Reaches i := by
  constructor
  · rintro ⟨n, hn, hi⟩
    rwa [List.mem_singleton.1 hn] at hi
  · exact fun hi => ⟨v.vfsRoot, List.mem_singleton.2 rfl, hi⟩

/-- With a root, all that matters is whether the traversal ends and whether it comes to a directory
that is printed in another way. -/
theorem displays_iff_shown (hfit : v.NamesFit) (hroot : v.vfsRoot ≠ ID_INVALID) : v.Displays ↔
    Acc (Child v.entries) v.vfsRoot ∧ ∀ i, v.Reaches i → v.shown i = v.entries i := by
  have htree (name : Chars) : tree v.vfsRoot name = [(v.vfsRoot, name)] := if_neg hroot
  constructor
  · rintro ⟨fuel, lines, hprint, hlines⟩
    have hshown := vfsPrintInode_traverses hfit hprint
    rw [htree] at hshown hlines
    refine ⟨hlines.acc _ (List.mem_singleton.2 rfl), fun i hi => ?_⟩
    exact (hshown.iff_agree v.shown_thins).1 hlines i ((v.visited_root_iff i).2 hi)
  · rintro ⟨hacc, hagree⟩
    obtain ⟨depth, hdepth⟩ := vfsPrintInode_ends hacc
    obtain ⟨lines, hprint⟩ := hdepth depth (Nat.le_refl depth) [] 0
    have hshown := vfsPrintInode_traverses hfit hprint
    rw [htree] at hshown
    refine ⟨depth, lines, hprint, ?_⟩
    rw [htree]
    exact (hshown.iff_agree v.shown_thins).2 fun i hi => hagree i ((v.visited_root_iff i).1 hi)

theorem displayable_iff_shown (v : Vfs) : v.Displayable ↔
    Acc (Child v.entries) v.vfsRoot ∧ ∀ i, v.Reaches i → v.shown i = v.entries i := by
  rw [acc_iff_acyclic v.finite_children]
  constructor
  · rintro ⟨hacyclic, hvalid, hnamed⟩
    exact ⟨hacyclic, fun i hi => (v.shown_eq_iff i).2 ⟨hvalid i hi, hnamed i hi⟩⟩
  · rintro ⟨hacyclic, hagree⟩
    exact ⟨hacyclic, fun i hi => ((v.shown_eq_iff i).1 (hagree i hi)).1,
      fun i hi => ((v.shown_eq_iff i).1 (hagree i hi)).2⟩

theorem displays_of_invalid (hroot : v.vfsRoot = ID_INVALID) : v.Displays := by
  refine ⟨1, [], if_pos hroot, ?_⟩
  rw [tree, if_pos hroot]
  exact .nil

theorem displayable_of_invalid (ok : v.IdsOk) (hroot : v.vfsRoot = ID_INVALID) :
    v.Displayable := by
  have hnone : v.entries ID_INVALID = [] := by rw [entries, childrenOf_invalid ok]; rfl
  have hchild (i : Int) : ¬ Child v.entries i ID_INVALID := by
    rw [Child, hnone]
    exact List.not_mem_nil
  refine v.displayable_iff_shown.2 ⟨?_, fun i hi => ?_⟩
  · rw [hroot]
    exact Acc.intro _ fun i hi => absurd hi (hchild i)
  · rw [Reaches, hroot] at hi
    rcases hi.cases_tail with he | ⟨k, -, hk⟩
    · rw [← he, hnone, shown, childrenOf_invalid ok]
      rfl
    · exact absurd hk (hchild k)

/-- The listing ends and is right exactly where no inode is below itself, every entry has an inode,
and no inode has two names in one directory. -/
theorem displays_iff (hr : Reachable (· = boot) (BuildStep w) v) : v.Displays ↔ v.Displayable := by
  by_cases hroot : v.vfsRoot = ID_INVALID
  · have ok : v.IdsOk := .run (hr.mono fun _ _ ⟨c, _, h⟩ => ⟨c, h⟩)
    exact iff_of_true (displays_of_invalid hroot) (displayable_of_invalid ok hroot)
  · rw [displays_iff_shown (.run hr) hroot, displayable_iff_shown]

theorem displayable_mountedFile : mountedFile.Displayable := by
  have hroot : mountedFile.entries 0 = [(1, [0x61#8])] := by decide
  have hfile : mountedFile.entries 1 = [] := by decide
  have hleaf : Traverses mountedFile.entries 2 (mountedFile.entries 1) [] := by
    rw [hfile]
    exact .nil
  have hbelow : Traverses mountedFile.entries 1 (mountedFile.entries 0) [(1, [0x61#8])] := by
    rw [hroot]
    exact .cons hleaf .nil
  have hr := mountedFile_built 64
  refine (displays_iff hr).1 ⟨3, [⟨0, [], .DIRECTORY⟩, ⟨1, [0x61#8], .NORMAL_FILE⟩], ?_, ?_⟩
  · decide
  · exact .cons hbelow .nil

def twiceMounted : Vfs := (mountedFile.mountChild 0 1 [0x62#8]).2

/-- A root directory that is mounted in itself. -/
def selfMounted : Vfs := (mountedFile.mountChild 0 0 [0x62#8]).2

/-- The second name is not shown, and the listing of a directory in itself never ends. -/
theorem not_displays :
    (Reachable (· = boot) (BuildStep 64) twiceMounted ∧ ¬ twiceMounted.Displays) ∧
      Reachable (· = boot) (BuildStep 64) selfMounted ∧ ¬ selfMounted.Displays := by
  have htwice : Reachable (· = boot) (BuildStep 64) twiceMounted :=
    (mountedFile_built 64).step ⟨.mountChild 0 1 [0x62#8], trivial, rfl⟩
  have hself : Reachable (· = boot) (BuildStep 64) selfMounted :=
    (mountedFile_built 64).step ⟨.mountChild 0 0 [0x62#8], trivial, rfl⟩
  refine ⟨⟨htwice, ?_⟩, hself, ?_⟩
  · rw [displays_iff_shown (.run htwice) (by decide)]
    rintro ⟨-, hagree⟩
    have hsame := hagree 0 .refl
    revert hsame
    decide
  · rw [displays_iff_shown (.run hself) (by decide)]
    rintro ⟨hacc, -⟩
    have hchild : Child selfMounted.entries 0 0 := by
      rw [Child]
      decide
    exact ((acc_iff_acyclic selfMounted.finite_children 0).1 hacc) 0 .refl (.single hchild)

end Vfs
end Tupai
