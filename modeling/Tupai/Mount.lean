import Tupai.Initrd
import Tupai.Lib.PathTree

namespace Tupai
open Lib
set_option autoImplicit true

/-- An inode of the mounted tree; a file of the initrd has a header. -/
structure Node where
  id : Int
  type : InodeType
  header : Option Nat

/-- The tables hold the node at a path of the tree, with its children. -/
def Kernel.HasNode (k : Kernel Devices) (t : PathTree Chars Node) (p : List Chars)
    (n : Node) : Prop :=
  ∃ inode, k.vfs.inodeTable.get n.id = some inode ∧ inode.type = n.type ∧
    inode.vtable = n.header.map (fun _ => .initrdVtable) ∧ k.dev.inodes.get n.id = n.header ∧
    ∀ name, (inode.children.find? (strEqual ·.name name)).map InodeChild.inode =
      (t (p ++ [cstr name])).map Node.id

/-- Inode ids are handed out in order, and the driver's table has no others. -/
structure InodesOk (k : Kernel Devices) : Prop where
  inodeOk : k.vfs.inodeTable.Ok
  inodeKeys : ∀ i, k.vfs.inodeTable.get i ≠ none → 0 ≤ i ∧ i < k.vfs.inodeCounter
  counter : 0 ≤ k.vfs.inodeCounter
  filesOk : k.dev.inodes.Ok
  fileKeys : ∀ i, k.dev.inodes.get i ≠ none → i < k.vfs.inodeCounter
  filesSize : k.dev.inodes.size ≤ k.vfs.inodeTable.size

/-- The inodes below the root make up the tree. -/
structure Mounted (k : Kernel Devices) (t : PathTree Chars Node) : Prop where
  ok : InodesOk k
  closed : t.Closed
  short : ∀ p, t p ≠ none → ∀ e ∈ p, e ≠ [] ∧ e.length < FILENAME_MAX - 1
  root : ∃ n, t [] = some n ∧ n.id = k.vfs.vfsRoot
  inj : ∀ p q n m, t p = some n → t q = some m → n.id = m.id → p = q
  node : ∀ p n, t p = some n → k.HasNode t p n

variable {k k' : Kernel Devices} {t : PathTree Chars Node}

theorem Mounted.getChild (h : Mounted k t) (hp : t p = some n) (name : Chars) :
    k.vfs.getChild n.id name = ((t (p ++ [cstr name])).map Node.id).getD ID_INVALID := by
  obtain ⟨inode, hget, _, _, _, hchild⟩ := h.node p n hp
  rw [Vfs.getChild, hget]
  exact (findChild_eq inode.children name).trans (congrArg (Option.getD · ID_INVALID) (hchild name))

theorem Mounted.id_lt (h : Mounted k t) (hp : t p = some n) :
    0 ≤ n.id ∧ n.id < k.vfs.inodeCounter := by
  obtain ⟨inode, hget, _⟩ := h.node p n hp
  apply h.ok.inodeKeys
  rw [hget]
  exact Option.some_ne_none inode

theorem Mounted.id_valid (h : Mounted k t) (hp : t p = some n) : n.id ≠ ID_INVALID := by
  have hpos := (h.id_lt hp).1
  intro he
  rw [he] at hpos
  exact absurd hpos (by decide)

/-- Components that `path_element_get` has to cut are not in the tree. -/
theorem Mounted.cut (h : Mounted k t) (p : List Chars) (e : Chars) :
    t (p ++ [e.take (FILENAME_MAX - 1)]) = t (p ++ [e]) := by
  by_cases hlen : e.length ≤ FILENAME_MAX - 1
  · rw [List.take_of_length_le hlen]
  · have hnone : ∀ e' : Chars, FILENAME_MAX - 1 ≤ e'.length → t (p ++ [e']) = none := by
      intro e' hlen'
      by_contra hn
      have := (h.short _ hn e' (List.mem_append_right _ (List.mem_singleton_self e'))).2
      omega
    rw [hnone e (by omega), hnone]
    rw [List.length_take]
    omega

theorem Mounted.walk (h : Mounted k t) (hp : t ((elements path).take i) = some n)
    (hrounds : i + rounds = (elements path).length) :
    k.vfs.walk path rounds i n.id = ((t (elements path)).map Node.id).getD ID_INVALID := by
  induction rounds generalizing i n with
  | zero =>
    rw [List.take_of_length_le (by omega)] at hp
    rw [Vfs.walk, hp]
    rfl
  | succ rounds ih =>
    have hi : i < (elements path).length := by omega
    have htake := List.take_append_getElem hi
    have hname := cstr_pathElementGet [] (List.getElem?_eq_getElem hi)
    rw [Vfs.walk_succ, h.getChild hp, hname, h.cut, htake]
    cases hc : t ((elements path).take (i + 1)) with
    | none =>
      have hn : t (elements path) = none := by
        by_contra hne
        exact h.closed.of_prefix hne (List.take_prefix _ _) hc
      rw [hn]
      exact if_pos rfl
    | some m =>
      exact (if_neg (h.id_valid hc)).trans (ih hc (by omega))

theorem Mounted.getInode (h : Mounted k t) (path : Chars) :
    k.vfs.getInode path = ((t (elements path)).map Node.id).getD ID_INVALID := by
  obtain ⟨n, hn, hid⟩ := h.root
  rw [Vfs.getInode, pathElementCount_eq, ← hid]
  exact h.walk hn (Nat.zero_add _)

def elementType (typeflag : Byte) (last : Bool) : InodeType :=
  if last then entryType typeflag else .DIRECTORY

/-- The node that `makeElement` adds. -/
def Kernel.newNode (w : Nat) (k : Kernel Devices) (header : Nat) (last : Bool) : Node where
  id := k.vfs.inodeCounter
  type := elementType (tarTypeflag w k.mem header) last
  header :=
    if elementType (tarTypeflag w k.mem header) last = .NORMAL_FILE then some header else none

/-- The inode table with a new child of `cinode`. -/
def childTable (table : Hashtable Inode) (fs cinode : Int) (name : Chars) (n : Node) :
    Hashtable Inode :=
  (((table.add n.id ⟨n.id, ID_INVALID, [], n.type, none⟩).2.modify n.id fun i =>
    { i with fs := fs }).modify cinode fun i =>
    { i with children := i.children ++ [⟨n.id, name⟩] }).modify n.id fun i =>
    { i with vtable := n.header.map fun _ => .initrdVtable }

def childFiles (files : Hashtable Nat) (n : Node) : Hashtable Nat :=
  match n.header with
  | some header => (files.add n.id header).2
  | none => files

def Kernel.addNode (k : Kernel Devices) (fs cinode : Int) (name : Chars) (n : Node) :
    Kernel Devices :=
  { k with
    vfs := { k.vfs with
      inodeCounter := k.vfs.inodeCounter + 1
      inodeTable := childTable k.vfs.inodeTable fs cinode name n }
    dev := ⟨childFiles k.dev.inodes n⟩ }

/-- The state in which the new inode has its place but no vtable yet. -/
def Vfs.addChild (v : Vfs) (type : InodeType) (fs cinode : Int) (buff : Chars) : Vfs :=
  (((v.createInode type).2.setFs v.inodeCounter fs).2.mountChild cinode v.inodeCounter buff).2

theorem addChild_eq (v : Vfs) (type : InodeType) (fs cinode : Int) (buff : Chars) :
    v.addChild type fs cinode buff = { v with
      inodeCounter := v.inodeCounter + 1
      inodeTable := ((v.inodeTable.add v.inodeCounter
        ⟨v.inodeCounter, ID_INVALID, [], type, none⟩).2.modify v.inodeCounter fun i =>
        { i with fs := fs }).modify cinode fun i =>
        { i with
          children := i.children ++ [⟨v.inodeCounter, strCpyN buff [] FILENAME_MAX⟩] } } := by
  rw [Vfs.addChild, Vfs.mountChild, Vfs.modifyInode_snd, Vfs.setFs, Vfs.modifyInode_snd]
  rfl

theorem makeElement_eq (w : Nat) (k : Kernel Devices) (fs : Int) (header : Nat) (buff : Chars)
    (last : Bool) (cinode : Int) :
    k.makeElement w fs header buff last cinode = ((k.newNode w header last).id,
      k.addNode fs cinode (strCpyN buff [] FILENAME_MAX) (k.newNode w header last)) := by
  have hlast : elementType (tarTypeflag w k.mem header) last = .NORMAL_FILE → last = true := by
    cases last with
    | true => exact fun _ => rfl
    | false => exact nofun
  have he : k.makeElement w fs header buff last cinode =
      if elementType (tarTypeflag w k.mem header) last = .NORMAL_FILE ∧ last = true then
        (k.vfs.inodeCounter, { k with
          vfs := ((k.vfs.addChild (elementType (tarTypeflag w k.mem header) last) fs cinode
            buff).setVtable k.vfs.inodeCounter (some .initrdVtable)).2
          dev := ⟨(k.dev.inodes.add k.vfs.inodeCounter header).2⟩ })
      else (k.vfs.inodeCounter, { k with
          vfs := ((k.vfs.addChild (elementType (tarTypeflag w k.mem header) last) fs cinode
            buff).setVtable k.vfs.inodeCounter none).2 }) := rfl
  rw [he, Vfs.setVtable, Vfs.setVtable, Vfs.modifyInode_snd, Vfs.modifyInode_snd, addChild_eq,
    Kernel.addNode, childTable, childFiles]
  by_cases htype : elementType (tarTypeflag w k.mem header) last = .NORMAL_FILE
  · have hfile : (k.newNode w header last).header = some header := if_pos htype
    rw [if_pos ⟨htype, hlast htype⟩, hfile]
    rfl
  · have hfile : (k.newNode w header last).header = none := if_neg htype
    rw [if_neg fun hn => htype hn.1, hfile]
    rfl

theorem get_childTable {table : Hashtable Inode} {n : Node} (ok : table.Ok)
    (hnew : table.get n.id = none) (hroom : table.size < HASHTABLE_CAPACITY)
    (hc : table.get cinode = some parent) (fs : Int) (name : Chars) (id : Int) :
    (childTable table fs cinode name n).get id =
      if id = n.id then some ⟨n.id, fs, [], n.type, n.header.map fun _ => .initrdVtable⟩
      else if id = cinode then some { parent with children := parent.children ++ [⟨n.id, name⟩] }
      else table.get id := by
  have hne : n.id ≠ cinode := by
    rintro he
    rw [← he, hnew] at hc
    cases hc
  rw [childTable, Hashtable.get_modify, Hashtable.get_modify, Hashtable.get_modify,
    ok.get_add hnew]
  by_cases hid : id = n.id
  · subst hid
    simp only [hne, hroom, ↓reduceIte, and_self, Option.map_some]
  · by_cases hp : id = cinode
    · subst hp
      simp only [hid, hc, ↓reduceIte, false_and, Option.map_some]
    · simp only [hid, hp, ↓reduceIte, false_and]

theorem childTable_ok {table : Hashtable Inode} {n : Node} (ok : table.Ok)
    (hnew : table.get n.id = none) (hroom : table.size < HASHTABLE_CAPACITY) (fs cinode : Int)
    (name : Chars) : (childTable table fs cinode name n).Ok ∧
      (childTable table fs cinode name n).size = table.size + 1 := by
  obtain ⟨hok, hsize, _⟩ := ok.add_spec hnew hroom ⟨n.id, ID_INVALID, [], n.type, none⟩
  rw [childTable, Hashtable.size_modify, Hashtable.size_modify, Hashtable.size_modify]
  exact ⟨((hok.modify _ _).modify _ _).modify _ _, hsize⟩

theorem childFiles_spec {files : Hashtable Nat} {n : Node} (ok : files.Ok)
    (hnew : files.get n.id = none) (hroom : files.size < HASHTABLE_CAPACITY) :
    (childFiles files n).Ok ∧ (childFiles files n).size ≤ files.size + 1 ∧
      ∀ id, (childFiles files n).get id = if id = n.id then n.header else files.get id := by
  rw [childFiles]
  cases hh : n.header with
  | none =>
    refine ⟨ok, Nat.le_succ _, fun id => ?_⟩
    split_ifs with hid
    · rw [hid, hnew]
    · rfl
  | some header =>
    obtain ⟨hok, hsize, hget⟩ := ok.add_spec hnew hroom header
    exact ⟨hok, le_of_eq hsize, hget⟩

theorem InodesOk.fresh {n : Node} (h : InodesOk k) (hid : n.id = k.vfs.inodeCounter) :
    k.vfs.inodeTable.get n.id = none ∧ k.dev.inodes.get n.id = none := by
  rw [hid]
  exact ⟨Hashtable.fresh_of_lt fun i hi => (h.inodeKeys i hi).2, Hashtable.fresh_of_lt h.fileKeys⟩

/-- What `addNode` does to the tables when there is room. -/
structure AddedNode (k k' : Kernel Devices) (fs cinode : Int) (name : Chars) (parent : Inode)
    (n : Node) : Prop where
  ok : InodesOk k'
  size : k'.vfs.inodeTable.size = k.vfs.inodeTable.size + 1
  inode : ∀ id, k'.vfs.inodeTable.get id =
    if id = n.id then some ⟨n.id, fs, [], n.type, n.header.map fun _ => .initrdVtable⟩
    else if id = cinode then some { parent with children := parent.children ++ [⟨n.id, name⟩] }
    else k.vfs.inodeTable.get id
  file : ∀ id, k'.dev.inodes.get id = if id = n.id then n.header else k.dev.inodes.get id

theorem InodesOk.addNode {n : Node} (h : InodesOk k) (hid : n.id = k.vfs.inodeCounter)
    (hroom : k.vfs.inodeTable.size < HASHTABLE_CAPACITY)
    (hc : k.vfs.inodeTable.get cinode = some parent) (fs : Int) (name : Chars) :
    AddedNode k (k.addNode fs cinode name n) fs cinode name parent n := by
  obtain ⟨hinode, hfile⟩ := h.fresh hid
  have hget := get_childTable h.inodeOk hinode hroom hc fs name
  obtain ⟨hok, hsize⟩ := childTable_ok h.inodeOk hinode hroom fs cinode name
  obtain ⟨hfok, hfsize, hfget⟩ := childFiles_spec h.filesOk hfile
    (lt_of_le_of_lt h.filesSize hroom)
  have hpos := h.counter
  refine ⟨⟨hok, fun i hi => ?_, ?_, hfok, fun i hi => ?_, ?_⟩, hsize, hget, hfget⟩
  · dsimp only [Kernel.addNode] at hi ⊢
    rw [hget] at hi
    split_ifs at hi with hn hp
    · omega
    · have := h.inodeKeys cinode (by rw [hc]; exact Option.some_ne_none parent)
      omega
    · have := h.inodeKeys i hi
      omega
  · dsimp only [Kernel.addNode]
    omega
  · dsimp only [Kernel.addNode] at hi ⊢
    rw [hfget] at hi
    split_ifs at hi with hn
    · omega
    · have := h.fileKeys i hi
      omega
  · have := h.filesSize
    dsimp only [Kernel.addNode]
    omega

theorem find?_child (hne : cstr name ≠ []) (other : Chars) (id : Int) :
    [InodeChild.mk id name].find? (strEqual ·.name other) =
      if cstr other = cstr name then some ⟨id, name⟩ else none := by
  rw [List.find?_singleton]
  by_cases he : cstr other = cstr name
  · rw [if_pos ((strEqual_iff hne).2 he.symm), if_pos he]
  · rw [if_neg (fun hs => he ((strEqual_iff hne).1 hs).symm), if_neg he]

section AddedNode

variable {n m : Node}

theorem AddedNode.hasNode_new (ha : AddedNode k k' fs cinode name parent m)
    (hnone : ∀ other, t (p ++ [other]) = none) : k'.HasNode t p m := by
  refine ⟨_, (ha.inode m.id).trans (if_pos rfl), rfl, rfl, (ha.file m.id).trans (if_pos rfl),
    fun other => ?_⟩
  rw [hnone]
  rfl

theorem AddedNode.hasNode_parent (ha : AddedNode k k' fs n.id name parent m)
    (hget : k.vfs.inodeTable.get n.id = some parent) (h : k.HasNode t p n) (hid : n.id ≠ m.id)
    (hname : cstr name ≠ []) (hnew : t (p ++ [cstr name]) = none) :
    k'.HasNode (t.set (p ++ [cstr name]) m) p n := by
  obtain ⟨inode, hinode, htype, hvtable, hheader, hchild⟩ := h
  obtain rfl : parent = inode := Option.some_inj.1 (hget.symm.trans hinode)
  refine ⟨_, (ha.inode n.id).trans ((if_neg hid).trans (if_pos rfl)), htype, hvtable,
    ((ha.file n.id).trans (if_neg hid)).trans hheader, fun other => ?_⟩
  rw [List.find?_append, find?_child hname]
  by_cases hoe : cstr other = cstr name
  · have hno := hchild other
    rw [hoe, hnew, Option.map_none, Option.map_eq_none_iff] at hno
    rw [hno, if_pos hoe, hoe, PathTree.set_self]
    rfl
  · have hne : p ++ [cstr other] ≠ p ++ [cstr name] := by simpa using hoe
    rw [if_neg hoe, Option.or_none, PathTree.set_of_ne t m hne]
    exact hchild other

theorem AddedNode.hasNode_other (ha : AddedNode k k' fs cinode name parent m)
    (h : k.HasNode t q n) (hid : n.id ≠ m.id) (hc : n.id ≠ cinode) (hq : q ≠ p) :
    k'.HasNode (t.set (p ++ [cstr name]) m) q n := by
  obtain ⟨inode, hinode, htype, hvtable, hheader, hchild⟩ := h
  refine ⟨inode, (ha.inode n.id).trans ?_, htype, hvtable,
    ((ha.file n.id).trans (if_neg hid)).trans hheader, fun other => ?_⟩
  · rw [if_neg hid, if_neg hc]
    exact hinode
  · rw [PathTree.set_of_ne t m fun he => hq (List.append_singleton_inj.1 he).1]
    exact hchild other

end AddedNode

/-- The step lemma: a new inode under an old one is a new leaf of the tree. -/
theorem Mounted.addNode {m : Node} (h : Mounted k t) (hp : t p = some n)
    (hshort : cstr name ≠ [] ∧ (cstr name).length < FILENAME_MAX - 1)
    (hnew : t (p ++ [cstr name]) = none) (hid : m.id = k.vfs.inodeCounter)
    (hroom : k.vfs.inodeTable.size < HASHTABLE_CAPACITY) (fs : Int) :
    Mounted (k.addNode fs n.id name m) (t.set (p ++ [cstr name]) m) := by
  have hnode := h.node p n hp
  obtain ⟨parent, hparent, _⟩ := hnode
  have ha := h.ok.addNode hid hroom hparent fs name
  have hfresh : ∀ q n', t q = some n' → n'.id ≠ m.id := by
    intro q n' hq he
    have := (h.id_lt hq).2
    omega
  have hin : t p ≠ none := by
    rw [hp]
    exact Option.some_ne_none n
  refine ⟨ha.ok, h.closed.set hin _ m, ?_, ?_, PathTree.set_inj h.inj hfresh, ?_⟩
  · intro q hq e he
    rcases not_and_or.1 (mt PathTree.set_eq_none_iff.2 hq) with hqe | hq
    · rw [not_not.1 hqe] at he
      rcases List.mem_append.1 he with he | he
      · exact h.short p hin e he
      · rw [List.mem_singleton.1 he]
        exact hshort
    · exact h.short q hq e he
  · obtain ⟨r, hr, hrid⟩ := h.root
    refine ⟨r, ?_, hrid⟩
    rw [PathTree.set_of_ne t m (by simp)]
    exact hr
  · intro q n' hq
    by_cases hqe : q = p ++ [cstr name]
    · rw [hqe, PathTree.set_self] at hq
      cases hq
      refine ha.hasNode_new fun other => PathTree.set_eq_none_iff.2 ⟨?_, ?_⟩
      · simp [hqe]
      · by_contra hn
        exact h.closed q _ hn (hqe ▸ hnew)
    · rw [PathTree.set_of_ne t m hqe] at hq
      have hidne := hfresh q n' hq
      by_cases hqp : q = p
      · subst hqp
        obtain rfl : n' = n := Option.some_inj.1 (hq.symm.trans hp)
        exact ha.hasNode_parent hparent (h.node q n' hq) hidne hshort.1 hnew
      · exact ha.hasNode_other (h.node q n' hq) hidne
          (fun he => hqp (h.inj q p n' n hq hp he)) hqp

/-- A node that is made on the way. -/
def IsInner (n : Node) : Prop := n.type = .DIRECTORY ∧ n.header = none

def IsEntry (typeflag : Byte) (header : Nat) (n : Node) : Prop :=
  n.type = entryType typeflag ∧
    n.header = if entryType typeflag = .NORMAL_FILE then some header else none

theorem newNode_entry (w : Nat) (k : Kernel Devices) (header : Nat) :
    IsEntry (tarTypeflag w k.mem header) header (k.newNode w header true) := ⟨rfl, rfl⟩

theorem newNode_inner (w : Nat) (k : Kernel Devices) (header : Nat) :
    IsInner (k.newNode w header false) := ⟨rfl, rfl⟩

/-- The inode table has room for what is missing. -/
def Kernel.RoomFor (k : Kernel Devices) (S : Finset (List Chars))
    (t : PathTree Chars Node) : Prop :=
  k.vfs.inodeTable.size + t.missing S ≤ HASHTABLE_CAPACITY

theorem cstr_short_element {filename : Chars} (hi : i < (elements filename).length)
    (hshort : ∀ e ∈ elements filename, e.length < FILENAME_MAX - 1) :
    cstr (pathElementGet filename [] i).2 = (elements filename)[i] := by
  rw [cstr_pathElementGet [] (List.getElem?_eq_getElem hi),
    List.take_of_length_le (le_of_lt (hshort _ (List.getElem_mem hi)))]

theorem cstr_short_element_copy {filename : Chars} (hi : i < (elements filename).length)
    (hshort : ∀ e ∈ elements filename, e.length < FILENAME_MAX - 1) :
    cstr (strCpyN (pathElementGet filename [] i).2 [] FILENAME_MAX) = (elements filename)[i] := by
  rw [cstr_strCpyN, cstr_short_element hi hshort,
    List.take_of_length_le (le_of_lt (hshort _ (List.getElem_mem hi)))]

theorem Mounted.makeElement {filename : Chars} (h : Mounted k t)
    (hp : t ((elements filename).take i) = some n) (hi : i < (elements filename).length)
    (hc : t ((elements filename).take (i + 1)) = none)
    (hshort : ∀ e ∈ elements filename, e.length < FILENAME_MAX - 1)
    (hS : ∀ p, p ≠ [] → p <+: elements filename → p ∈ S) (hroom : k.RoomFor S t)
    (w : Nat) (fs : Int) (header : Nat) (last : Bool) :
    ∃ k', k.makeElement w fs header (pathElementGet filename [] i).2 last n.id =
        ((k.newNode w header last).id, k') ∧
      Mounted k' (t.set ((elements filename).take (i + 1)) (k.newNode w header last)) ∧
      k'.RoomFor S (t.set ((elements filename).take (i + 1)) (k.newNode w header last)) := by
  have hmem := List.getElem_mem hi
  have htake := List.take_append_getElem hi
  have hcopy := cstr_short_element_copy hi hshort
  have hq : (elements filename).take (i + 1) ∈ S := by
    apply hS _ _ (List.take_prefix _ _)
    rw [← htake]
    exact List.append_ne_nil_of_right_ne_nil _ (List.cons_ne_nil _ _)
  have hmissing := PathTree.missing_set hq hc (k.newNode w header last)
  rw [Kernel.RoomFor] at hroom
  have hlt : k.vfs.inodeTable.size < HASHTABLE_CAPACITY := by omega
  have hnew := h.addNode (m := k.newNode w header last) hp
    (by rw [hcopy]; exact ⟨elements_ne_nil hmem, hshort _ hmem⟩)
    (by rw [hcopy, htake]; exact hc) rfl hlt fs
  rw [hcopy, htake] at hnew
  refine ⟨_, makeElement_eq .., hnew, ?_⟩
  obtain ⟨parent, hparent, _⟩ := h.node _ n hp
  rw [Kernel.RoomFor, (h.ok.addNode (n := k.newNode w header last) rfl hlt hparent fs _).size]
  omega

/-- The walk-or-create loop grows the tree by the missing nodes of the name. -/
theorem Mounted.mountElements {filename : Chars} (h : Mounted k t)
    (hp : t ((elements filename).take i) = some n)
    (hrounds : i + rounds = (elements filename).length)
    (hshort : ∀ e ∈ elements filename, e.length < FILENAME_MAX - 1)
    (hS : ∀ p, p ≠ [] → p <+: elements filename → p ∈ S) (hroom : k.RoomFor S t)
    (w : Nat) (fs : Int) (header : Nat) :
    ∃ t', Mounted (Kernel.mountElements w fs header filename rounds i n.id k) t' ∧
      PathTree.Grown IsInner (IsEntry (tarTypeflag w k.mem header) header)
        (elements filename) t t' ∧
      (Kernel.mountElements w fs header filename rounds i n.id k).RoomFor S t' := by
  induction rounds generalizing i k t n with
  | zero =>
    rw [List.take_of_length_le (by omega)] at hp
    exact ⟨t, h, .refl h.closed (by rw [hp]; exact Option.some_ne_none n), hroom⟩
  | succ rounds ih =>
    have hi : i < (elements filename).length := by omega
    have hchild := h.getChild hp (pathElementGet filename [] i).2
    rw [cstr_short_element hi hshort, List.take_append_getElem hi] at hchild
    rw [Kernel.mountElements, hchild]
    cases hc : t ((elements filename).take (i + 1)) with
    | some m =>
      dsimp only [Option.map_some, Option.getD_some]
      rw [if_pos (h.id_valid hc)]
      exact ih h hc (by omega) hroom
    | none =>
      obtain ⟨k', hmake, hnew, hroom'⟩ :=
        h.makeElement hp hi hc hshort hS hroom w fs header (rounds = 0)
      dsimp only [Option.map_none, Option.getD_none]
      rw [if_neg (by simp), hmake]
      have hkept := k.makeElement_mem w fs header (pathElementGet filename [] i).2 (rounds = 0) n.id
      rw [hmake] at hkept
      obtain ⟨t', h', hg, hroom''⟩ := ih hnew (PathTree.set_self ..) (by omega) hroom'
      rw [hkept] at hg
      have hlast : (elements filename).take (i + 1) = elements filename ↔ rounds = 0 := by
        rw [List.take_eq_self_iff]
        omega
      refine ⟨t', h', hg.set (List.take_prefix _ _) hc (fun he => ?_) fun he => ?_, hroom''⟩
      · rw [decide_eq_true (hlast.1 he)]
        exact newNode_entry w k header
      · rw [decide_eq_false (mt hlast.2 he)]
        exact newNode_inner w k header

end Tupai
