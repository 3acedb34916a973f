import Mathlib.Data.List.Infix
import Tupai.Mount
import Tupai.Reading

namespace Tupai
open Lib
set_option autoImplicit true

/-- The members of an archive with the addresses of their headers. -/
def placed : (header : Nat) → List TarEntry → List (Nat × TarEntry)
  | _, [] => []
  | header, e :: es => (header, e) :: placed (header + e.extent) es

theorem placed_onto (header : Nat) (he : e ∈ es) : ∃ header', (header', e) ∈ placed header es := by
  induction es generalizing header with
  | nil => cases he
  | cons e' es ih =>
    rcases List.mem_cons.1 he with rfl | he
    · exact ⟨header, List.mem_cons_self⟩
    · obtain ⟨header', hm⟩ := ih (header + e'.extent) he
      exact ⟨header', List.mem_cons_of_mem _ hm⟩

theorem Archive.placed (ha : Archive mem header es stop) (hd : d ∈ placed header es) :
    d.2 ∈ es ∧ TarAt mem d.1 d.2 ∧ header ≤ d.1 ∧ d.1 + d.2.extent + 512 ≤ stop := by
  induction ha with
  | zeros _ => cases hd
  | @entry header e es stop he ha ih =>
    rcases List.mem_cons.1 hd with rfl | hd
    · exact ⟨List.mem_cons_self, he, le_refl _, ha.le⟩
    · obtain ⟨hm, hat, hle, hstop⟩ := ih hd
      exact ⟨List.mem_cons_of_mem _ hm, hat, by omega, hstop⟩

def DIRTYPE : Byte := 0x35#8

/-- The types that the typeflags `0` to `6` denote. -/
def TYPEFLAGS : List (Byte × InodeType) :=
  [(0x30#8, .NORMAL_FILE), (0x31#8, .HARD_LINK), (0x32#8, .SYM_LINK), (0x33#8, .CHAR_DEVICE),
    (0x34#8, .BLOCK_DEVICE), (DIRTYPE, .DIRECTORY), (0x36#8, .PIPE)]

theorem entryType_eq : ∀ f ∈ TYPEFLAGS, entryType f.1 = f.2 := by decide

/-- The names of an archive do not get in each other's way. -/
structure WellNamed (es : List TarEntry) : Prop where
  named : ∀ e ∈ es, elements e.name ≠ []
  distinct : (es.map fun e => elements e.name).Nodup
  nested : ∀ e ∈ es, e.typeflag ≠ DIRTYPE → ∀ e' ∈ es, elements e.name <+: elements e'.name →
    elements e.name = elements e'.name

def Follows (d e : TarEntry) : Prop :=
  elements e.name ≠ elements d.name ∧
    (elements e.name <+: elements d.name → e.typeflag = DIRTYPE)

theorem WellNamed.follows (h : WellNamed es) : es.Pairwise Follows := by
  apply (List.pairwise_map.1 h.distinct).imp_of_mem
  intro d e hd he hne
  refine ⟨Ne.symm hne, fun hpre => ?_⟩
  by_contra hflag
  exact hne (h.nested e he hflag d hd hpre).symm

/-- The path of a member, and what its node has to be. -/
def entryLeaf (d : Nat × TarEntry) : List Chars × (Node → Prop) :=
  (elements d.2.name, IsEntry d.2.typeflag d.1)

theorem inner_directory (hn : IsInner n) (header : Nat) : IsEntry DIRTYPE header n := hn

variable {k : Kernel Devices} {t : PathTree Chars Node} {e : TarEntry}

theorem Mounted.mountEntry (h : Mounted k t) (he : TarAt k.mem header e)
    (hw : header + 512 < 2 ^ w) (hS : ∀ p, p ≠ [] → p <+: elements e.name → p ∈ S)
    (hroom : k.RoomFor S t) (fs : Int) :
    ∃ t', Mounted (Kernel.mountEntry w fs header k) t' ∧
      PathTree.Grown IsInner (IsEntry e.typeflag header) (elements e.name) t t' ∧
      (Kernel.mountEntry w fs header k).RoomFor S t' := by
  obtain ⟨n, hn, hid⟩ := h.root
  have hflag : tarTypeflag w k.mem header = e.typeflag := by
    have hfield : TAR_TYPEFLAG = 156 := rfl
    rw [tarTypeflag, wrap_of_lt (by omega), he.typeflag]
  have hshort : ∀ s ∈ elements e.name, s.length < FILENAME_MAX - 1 := by
    intro s hs
    have hlen := (elements_length hs).trans he.nameLen.2
    rw [FILENAME_MAX]
    omega
  have htake : t ((elements e.name).take 0) = some n := hn
  rw [Kernel.mountEntry, he.filename hw, pathElementCount_eq, Vfs.getRoot, ← hid, ← hflag]
  exact h.mountElements htake (Nat.zero_add _) hshort hS hroom w fs header

/-- A tree that was grown by the name of a member holds it next to those before it. -/
theorem populated_entry {ds : List (Nat × TarEntry)}
    (hpop : PathTree.Populated IsInner (ds.map entryLeaf) t)
    (hg : PathTree.Grown IsInner (IsEntry e.typeflag header) (elements e.name) t t')
    (hne : elements e.name ≠ []) (hds : ∀ d ∈ ds, Follows d.2 e) :
    PathTree.Populated IsInner (((header, e) :: ds).map entryLeaf) t' := by
  apply hpop.grow hg hne
  · intro l hl
    obtain ⟨d, hd, rfl⟩ := List.mem_map.1 hl
    exact (hds d hd).1
  · intro l hl hpre n hn
    obtain ⟨d, hd, rfl⟩ := List.mem_map.1 hl
    rw [(hds d hd).2 hpre]
    exact inner_directory hn header

theorem Mounted.mountArchive_room {ds : List (Nat × TarEntry)} (ha : Archive k.mem header es stop)
    (hstop : stop ≤ 2 ^ w) (hheader : header ≠ 0) (hes : es ≠ []) (h : Mounted k t)
    (hpop : PathTree.Populated IsInner (ds.map entryLeaf) t)
    (hnamed : ∀ e ∈ es, elements e.name ≠ []) (hfollows : es.Pairwise Follows)
    (hds : ∀ d ∈ ds, ∀ e ∈ es, Follows d.2 e)
    (hS : ∀ e ∈ es, ∀ p, p ≠ [] → p <+: elements e.name → p ∈ S) (hroom : k.RoomFor S t)
    (hfuel : es.length < fuel) (fs : Int) :
    ∃ k' t', ∃ done : List (Nat × TarEntry),
      Kernel.mountArchive w fs fuel header k = some k' ∧ Mounted k' t' ∧
      PathTree.Populated IsInner (done.map entryLeaf) t' ∧
      (∀ d, d ∈ done ↔ d ∈ ds ∨ d ∈ placed header es) ∧ k'.mem = k.mem ∧ k'.RoomFor S t' := by
  induction es generalizing header k t ds fuel with
  | nil => exact absurd rfl hes
  | cons e es ih =>
    cases ha with
    | entry he ha =>
      obtain ⟨fuel, rfl⟩ := Nat.exists_eq_succ_of_ne_zero (Nat.ne_zero_of_lt hfuel)
      have hle := ha.le
      have hext : e.extent = 512 + 512 * ((e.data.length + 511) / 512) := rfl
      obtain ⟨hne, hnamed⟩ := List.forall_mem_cons.1 hnamed
      obtain ⟨hnext, hfollows⟩ := List.pairwise_cons.1 hfollows
      obtain ⟨hSe, hS⟩ := List.forall_mem_cons.1 hS
      obtain ⟨t₁, h₁, hg, hroom₁⟩ := h.mountEntry he (by omega) hSe hroom fs (w := w)
      have hmem₁ := Kernel.mountEntry_mem w fs header k
      have hpop₁ := populated_entry hpop hg hne fun d hd => hds d hd e List.mem_cons_self
      rw [Kernel.mountArchive, if_neg hheader, he.tarNext ha hstop]
      by_cases hnil : es = []
      · subst hnil
        obtain ⟨fuel, rfl⟩ := Nat.exists_eq_succ_of_ne_zero
          (Nat.ne_zero_of_lt (Nat.lt_of_succ_lt_succ hfuel))
        refine ⟨_, t₁, _, ?_, h₁, hpop₁, fun d => ?_, hmem₁, hroom₁⟩
        · rw [if_pos rfl, Kernel.mountArchive, if_pos rfl]
        · rw [List.mem_cons, placed, List.mem_cons, or_comm (a := d ∈ ds), placed, List.mem_nil_iff,
            or_false]
      · have hds₁ : ∀ d ∈ (header, e) :: ds, ∀ e' ∈ es, Follows d.2 e' :=
          List.forall_mem_cons.2
            ⟨hnext, fun d hd e' he' => hds d hd e' (List.mem_cons_of_mem _ he')⟩
        rw [if_neg hnil]
        rw [← hmem₁] at ha
        obtain ⟨k', t', done, hrun, h', hpop', hdone, hmem', hroom'⟩ := ih ha (by omega) hnil h₁
          hpop₁ hnamed hfollows hds₁ hS hroom₁ (Nat.lt_of_succ_lt_succ hfuel)
        refine ⟨k', t', done, hrun, h', hpop', fun d => ?_, hmem'.trans hmem₁, hroom'⟩
        rw [hdone, List.mem_cons, placed, List.mem_cons, or_assoc, or_left_comm]

theorem Mounted.mountArchive {ds : List (Nat × TarEntry)} (ha : Archive k.mem header es stop)
    (hstop : stop ≤ 2 ^ w) (hheader : header ≠ 0) (hes : es ≠ []) (h : Mounted k t)
    (hpop : PathTree.Populated IsInner (ds.map entryLeaf) t)
    (hnamed : ∀ e ∈ es, elements e.name ≠ []) (hfollows : es.Pairwise Follows)
    (hds : ∀ d ∈ ds, ∀ e ∈ es, Follows d.2 e)
    (hS : ∀ e ∈ es, ∀ p, p ≠ [] → p <+: elements e.name → p ∈ S) (hroom : k.RoomFor S t)
    (hfuel : es.length < fuel) (fs : Int) :
    ∃ k' t', ∃ done : List (Nat × TarEntry),
      Kernel.mountArchive w fs fuel header k = some k' ∧ Mounted k' t' ∧
      PathTree.Populated IsInner (done.map entryLeaf) t' ∧
      (∀ d, d ∈ done ↔ d ∈ ds ∨ d ∈ placed header es) ∧ k'.mem = k.mem := by
  obtain ⟨k', t', done, hrun, h', hpop', hdone, hmem', -⟩ := h.mountArchive_room ha hstop hheader
    hes hpop hnamed hfollows hds hS hroom hfuel fs
  exact ⟨k', t', done, hrun, h', hpop', hdone, hmem'⟩

def rootTree (root : Int) : PathTree Chars Node :=
  PathTree.set (fun _ => none) [] ⟨root, .DIRECTORY, none⟩

theorem rootTree_ne (root : Int) (hp : p ≠ []) : rootTree root p = none :=
  PathTree.set_of_ne _ _ hp

theorem rootTree_some (h : rootTree root p = some n) : p = [] ∧ n = ⟨root, .DIRECTORY, none⟩ := by
  by_cases hp : p = []
  · subst hp
    rw [rootTree, PathTree.set_self] at h
    cases h
    exact ⟨rfl, rfl⟩
  · rw [rootTree_ne root hp] at h
    cases h

theorem rootTree_populated (root : Int) : (rootTree root).Populated IsInner [] where
  domain := by
    intro p
    by_cases hp : p = []
    · subst hp
      rw [rootTree, PathTree.set_self]
      simp
    · rw [rootTree_ne root hp]
      simp [hp]
  leaf := fun _ hd => absurd hd List.not_mem_nil
  inner := by
    intro p n hn _
    rw [(rootTree_some hn).2]
    exact ⟨rfl, rfl⟩

/-- The state in which `initrd_create` starts on the archive. -/
def Kernel.withRoot (k : Kernel Devices) (name : Chars) : Kernel Devices :=
  { k with vfs := ((k.vfs.createFs name).2.setRoot
      ((k.vfs.createFs name).2.fsGetRoot (k.vfs.createFs name).1)).2 }

theorem withRoot_vfs (ok : k.vfs.Ok) (hroom : k.vfs.inodeTable.size < HASHTABLE_CAPACITY)
    (name : Chars) : (k.withRoot name).vfs.vfsRoot = k.vfs.inodeCounter ∧
      (k.withRoot name).vfs.inodeTable = (k.vfs.inodeTable.add k.vfs.inodeCounter
        ⟨k.vfs.inodeCounter, ID_INVALID, [], .DIRECTORY, none⟩).2.modify k.vfs.inodeCounter
        fun i => { i with fs := k.vfs.fsCounter } := by
  have hcreate : (k.vfs.createFs name).2 =
      (({ (k.vfs.createInode .DIRECTORY).2 with
        fsCounter := k.vfs.fsCounter + 1
        fsTable := (k.vfs.fsTable.add k.vfs.fsCounter
          ⟨k.vfs.fsCounter, strCpyN name [] FS_NAME_MAX, k.vfs.inodeCounter⟩).2 } : Vfs).setFs
        k.vfs.inodeCounter k.vfs.fsCounter).2 := rfl
  have hget := ok.fsOk.get_add ok.freshFs
    ⟨k.vfs.fsCounter, strCpyN name [] FS_NAME_MAX, k.vfs.inodeCounter⟩ k.vfs.fsCounter
  rw [if_pos ⟨rfl, lt_of_le_of_lt ok.roots hroom⟩] at hget
  rw [Vfs.setFs, Vfs.modifyInode_snd] at hcreate
  rw [Kernel.withRoot, hcreate]
  refine ⟨?_, rfl⟩
  change Vfs.fsGetRoot _ k.vfs.fsCounter = _
  rw [Vfs.fsGetRoot]
  dsimp only
  rw [hget]

/-- Ids are handed out in order, and the driver's table has only inodes that exist. -/
structure MountOk (k : Kernel Devices) : Prop where
  vfs : k.vfs.Ok
  filesOk : k.dev.inodes.Ok
  fileKeys : ∀ i, k.dev.inodes.get i ≠ none → i < k.vfs.inodeCounter
  filesSize : k.dev.inodes.size ≤ k.vfs.inodeTable.size

theorem MountOk.unused (ok : k.vfs.Ok) (hfiles : k.dev.inodes.Unused) : MountOk k :=
  ⟨ok, hfiles.ok, fun i hi => absurd (hfiles.get i) hi,
    (le_of_eq hfiles.size_eq).trans (Nat.zero_le _)⟩

theorem MountOk.withRoot (ok : MountOk k)
    (hroom : k.vfs.inodeTable.size < HASHTABLE_CAPACITY) (name : Chars) :
    Mounted (k.withRoot name) (rootTree k.vfs.inodeCounter) ∧
      (k.withRoot name).vfs.inodeTable.size = k.vfs.inodeTable.size + 1 := by
  obtain ⟨hroot, htable⟩ := withRoot_vfs ok.vfs hroom name
  obtain ⟨_, hsize, hget⟩ := ok.vfs.inodeOk.add_spec ok.vfs.freshInode hroom
    ⟨k.vfs.inodeCounter, ID_INVALID, [], .DIRECTORY, none⟩
  have hvfs := ok.vfs.createFs name
  have hcounter : (k.withRoot name).vfs.inodeCounter = k.vfs.inodeCounter + 1 := by
    rw [Kernel.withRoot, Vfs.setRoot, Vfs.createFs]
    dsimp only
    rw [Vfs.setFs, Vfs.modifyInode_snd]
    rfl
  have hnone : k.dev.inodes.get k.vfs.inodeCounter = none := by
    by_contra hn
    exact lt_irrefl _ (ok.fileKeys _ hn)
  refine ⟨⟨⟨hvfs.inodeOk, hvfs.inodeKeys, hvfs.counter, ok.filesOk, ?_, ?_⟩,
    ?_, ?_, ?_, ?_, ?_⟩, ?_⟩
  · intro i hi
    rw [hcounter]
    exact (ok.fileKeys i hi).trans (Int.lt_succ _)
  · rw [htable, Hashtable.size_modify, hsize]
    exact Nat.le_succ_of_le ok.filesSize
  · exact fun p x hx => absurd (rootTree_ne _ (by simp)) hx
  · intro p hp
    obtain ⟨n, hn⟩ := Option.ne_none_iff_exists'.1 hp
    rw [(rootTree_some hn).1]
    exact fun e he => absurd he List.not_mem_nil
  · exact ⟨_, PathTree.set_self .., hroot.symm⟩
  · intro p q n m hp hq _
    rw [(rootTree_some hp).1, (rootTree_some hq).1]
  · intro p n hn
    obtain ⟨rfl, rfl⟩ := rootTree_some hn
    refine ⟨⟨k.vfs.inodeCounter, k.vfs.fsCounter, [], .DIRECTORY, none⟩, ?_, rfl, rfl,
      hnone, fun name => ?_⟩
    · rw [htable, Hashtable.get_modify, if_pos rfl, hget, if_pos rfl]
      rfl
    · rw [rootTree_ne _ (by simp)]
      rfl
  · rw [htable, Hashtable.size_modify, hsize]

theorem Mounted.withRoot (ok : k.vfs.Ok) (hfiles : k.dev.inodes.Unused)
    (hroom : k.vfs.inodeTable.size < HASHTABLE_CAPACITY) (name : Chars) :
    Mounted (k.withRoot name) (rootTree k.vfs.inodeCounter) ∧
      (k.withRoot name).vfs.inodeTable.size = k.vfs.inodeTable.size + 1 :=
  (MountOk.unused ok hfiles).withRoot hroom name

/-- The prefixes of the members' element lists that need an inode of their own. -/
def prefixes (es : List TarEntry) : Finset (List Chars) :=
  (es.flatMap fun e => (elements e.name).inits).toFinset.erase []

theorem mem_prefixes : p ∈ prefixes es ↔ p ≠ [] ∧ ∃ e ∈ es, p <+: elements e.name := by
  simp [prefixes]

theorem missing_rootTree (es : List TarEntry) (root : Int) :
    (rootTree root).missing (prefixes es) = (prefixes es).card := by
  rw [PathTree.missing, Finset.filter_true_of_mem]
  intro p hp
  rw [rootTree_ne root (mem_prefixes.1 hp).1]
  rfl

/-- A later state with the same inodes and files, in which the archive is still in memory. -/
structure StillMounted (start stop : Nat) (k k' : Kernel Devices) : Prop where
  inodeTable : k'.vfs.inodeTable = k.vfs.inodeTable
  vfsRoot : k'.vfs.vfsRoot = k.vfs.vfsRoot
  files : k'.dev = k.dev
  mem : ∀ a, start ≤ a → a < stop → k'.mem a = k.mem a

/-- The filesystem shows the archive. -/
structure ArchiveMounted (w start stop : Nat) (es : List TarEntry) (k : Kernel Devices) : Prop where
  valid : ∀ q, k.vfs.getInode q ≠ ID_INVALID ↔ ∃ e ∈ es, elements q <+: elements e.name
  typed : ∀ e ∈ es, ∀ type, (e.typeflag, type) ∈ TYPEFLAGS → ∀ q, elements q = elements e.name →
    k.vfs.getType (k.vfs.getInode q) = (0, type)
  implicit : ∀ q, (∃ e ∈ es, elements q <+: elements e.name) →
    (∀ e ∈ es, elements q ≠ elements e.name) →
    k.vfs.getType (k.vfs.getInode q) = (0, .DIRECTORY)
  contents : ∀ e ∈ es, e.typeflag = 0x30#8 → ∀ q, elements q = elements e.name →
    ∀ k', StillMounted start stop k k' → CanOpen k' →
    (k'.fdOpen (vtables w) (k'.vfs.getInode q)).1 ≠ ID_INVALID ∧
    ∀ reads, (∀ read ∈ reads, BufferOk w start stop read) →
      Kernel.fdReads w (k'.fdOpen (vtables w) (k'.vfs.getInode q)).1 reads
        (k'.fdOpen (vtables w) (k'.vfs.getInode q)).2 = e.data.take (capacity reads)

theorem walk_congr {v v' : Vfs} (h : v'.inodeTable = v.inodeTable) (path : Chars)
    (rounds i : Nat) (cinode : Int) :
    v'.walk path rounds i cinode = v.walk path rounds i cinode := by
  induction rounds generalizing i cinode with
  | zero => rfl
  | succ rounds ih =>
    rw [Vfs.walk_succ, Vfs.walk_succ, Vfs.getChild, Vfs.getChild, h]
    simp only [ih]

theorem StillMounted.getInode (h : StillMounted start stop k k') (q : Chars) :
    k'.vfs.getInode q = k.vfs.getInode q := by
  rw [Vfs.getInode, h.vfsRoot]
  exact walk_congr h.inodeTable q _ 0 _

theorem Mounted.getType (h : Mounted k t) (hn : t (elements q) = some n) :
    k.vfs.getInode q = n.id ∧ k.vfs.getType (k.vfs.getInode q) = (0, n.type) := by
  have hq : k.vfs.getInode q = n.id := by
    rw [h.getInode, hn]
    rfl
  obtain ⟨inode, hget, htype, _⟩ := h.node _ n hn
  rw [hq, Vfs.getType, hget, ← htype]
  exact ⟨rfl, rfl⟩

theorem Mounted.contents (h : Mounted k t) (hn : t (elements q) = some n)
    (hfile : n.header = some header) (he : TarAt k.mem header e) (hstart : start ≤ header)
    (hstop : header + e.extent + 512 ≤ stop) (hw : stop ≤ 2 ^ w)
    (hs : StillMounted start stop k k') (hopen : CanOpen k') :
    (k'.fdOpen (vtables w) (k'.vfs.getInode q)).1 ≠ ID_INVALID ∧
    ∀ reads, (∀ read ∈ reads, BufferOk w start stop read) →
      Kernel.fdReads w (k'.fdOpen (vtables w) (k'.vfs.getInode q)).1 reads
        (k'.fdOpen (vtables w) (k'.vfs.getInode q)).2 = e.data.take (capacity reads) := by
  obtain ⟨inode, hget, _, hvtable, hheader, _⟩ := h.node _ n hn
  have hid : k'.vfs.getInode q = n.id := (hs.getInode q).trans (h.getType hn).1
  have hvtable' : (k'.vfs.getVtable n.id).2 = some .initrdVtable := by
    rw [Vfs.getVtable, hs.inodeTable, hget]
    exact hvtable.trans (by rw [hfile]; rfl)
  have hheader' : k'.dev.inodes.get n.id = some header := by
    rw [hs.files, hheader, hfile]
  obtain ⟨hlfd, hfo, hmem⟩ := hopen.fdOpen w (h.id_valid hn) hvtable' hheader'
  rw [hid]
  refine ⟨hlfd, fun reads hreads => ?_⟩
  have hat : TarAt (k'.fdOpen (vtables w) n.id).2.mem header e := by
    rw [hmem]
    exact he.congr fun a ha ha' => hs.mem a (by omega) (by omega)
  rw [hfo.fdReads hat (by omega) (Nat.zero_le _) reads, List.drop_zero]
  intro read hread
  obtain ⟨hfit, hapart⟩ := hreads read hread
  exact ⟨hfit, by omega⟩

theorem Mounted.archive (h : Mounted k t) (ha : Archive k.mem start es stop) (hw : stop ≤ 2 ^ w)
    (hes : es ≠ []) {done : List (Nat × TarEntry)}
    (hpop : PathTree.Populated IsInner (done.map entryLeaf) t)
    (hdone : ∀ d, d ∈ done ↔ d ∈ placed start es) : ArchiveMounted w start stop es k := by
  have hdomain : ∀ q, t q ≠ none ↔ ∃ e ∈ es, q <+: elements e.name := by
    intro q
    rw [hpop.domain]
    constructor
    · rintro (rfl | ⟨l, hl, hpre⟩)
      · obtain ⟨e, he⟩ := List.exists_mem_of_ne_nil es hes
        exact ⟨e, he, List.nil_prefix⟩
      · obtain ⟨d, hd, rfl⟩ := List.mem_map.1 hl
        exact ⟨d.2, (ha.placed ((hdone d).1 hd)).1, hpre⟩
    · rintro ⟨e, he, hpre⟩
      obtain ⟨header, hd⟩ := placed_onto start he
      exact .inr ⟨_, List.mem_map_of_mem ((hdone _).2 hd), hpre⟩
  have hleaf : ∀ e ∈ es, ∀ q, elements q = elements e.name → ∃ header n,
      (header, e) ∈ placed start es ∧ t (elements q) = some n ∧ IsEntry e.typeflag header n := by
    intro e he q hq
    obtain ⟨header, hd⟩ := placed_onto start he
    obtain ⟨n, hn, hentry⟩ := hpop.leaf _ (List.mem_map_of_mem ((hdone _).2 hd))
    rw [hq]
    exact ⟨header, n, hd, hn, hentry⟩
  refine ⟨fun q => ?_, ?_, ?_, ?_⟩
  · rw [← hdomain, h.getInode]
    cases hn : t (elements q) with
    | none => simp
    | some n => simpa using h.id_valid hn
  · intro e he type htype q hq
    obtain ⟨header, n, _, hn, hentry⟩ := hleaf e he q hq
    rw [(h.getType hn).2, hentry.1, entryType_eq _ htype]
  · intro q hpre hne
    obtain ⟨n, hn⟩ := Option.ne_none_iff_exists'.1 ((hdomain (elements q)).2 hpre)
    have hinner := hpop.inner _ n hn fun l hl => by
      obtain ⟨d, hd, rfl⟩ := List.mem_map.1 hl
      exact hne d.2 (ha.placed ((hdone d).1 hd)).1
    rw [(h.getType hn).2, hinner.1]
  · intro e he hflag q hq k' hs hopen
    obtain ⟨header, n, hd, hn, hentry⟩ := hleaf e he q hq
    obtain ⟨_, hat, hstart, hstop⟩ := ha.placed hd
    have hfile : n.header = some header := by
      rw [hentry.2, hflag]
      rfl
    exact h.contents hn hfile hat hstart hstop hw hs hopen

/-- `initrd_create` mounts an archive faithfully. -/
theorem archive_mounted (hr : Reachable (· = Vfs.boot) VfsStep k.vfs)
    (hfiles : k.dev.inodes.Unused) (ha : Archive k.mem start es stop) (hstart : start ≠ 0)
    (hstop : stop ≤ 2 ^ w) (hes : es ≠ []) (hnames : WellNamed es)
    (hroom : k.vfs.inodeTable.size + ((prefixes es).card + 1) ≤ HASHTABLE_CAPACITY)
    (hfuel : es.length < fuel) (name : Chars) :
    ∃ fs k', k.initrdCreate w fuel start name = some (fs, k') ∧
      ArchiveMounted w start stop es k' := by
  obtain ⟨h, hsize⟩ := Mounted.withRoot (.run hr) hfiles (by omega) name
  have hroom' : (k.withRoot name).RoomFor (prefixes es) (rootTree k.vfs.inodeCounter) := by
    rw [Kernel.RoomFor, missing_rootTree]
    omega
  have ha' : Archive (k.withRoot name).mem start es stop := ha
  have hcreate : k.initrdCreate w fuel start name =
      (Kernel.mountArchive w (k.vfs.createFs name).1 fuel start (k.withRoot name)).map
        fun k' => ((k.vfs.createFs name).1, k') := rfl
  have hpop₀ : PathTree.Populated IsInner (([] : List (Nat × TarEntry)).map entryLeaf)
      (rootTree k.vfs.inodeCounter) := rootTree_populated _
  obtain ⟨k', t', done, hrun, h', hpop, hdone, hmem⟩ := h.mountArchive ha' hstop hstart hes hpop₀
    hnames.named hnames.follows (fun d hd => absurd hd List.not_mem_nil)
    (fun e he p hp hpre => mem_prefixes.2 ⟨hp, e, he, hpre⟩) hroom' hfuel (k.vfs.createFs name).1
  refine ⟨_, k', by rw [hcreate, hrun]; rfl, ?_⟩
  apply h'.archive (by rw [hmem]; exact ha') hstop hes hpop
  intro d
  rw [hdone, or_iff_right List.not_mem_nil]

/-- A file `d/f` of two bytes, and after it its directory. -/
def fileThenDir : List TarEntry :=
  [⟨[0x64#8, SLASH, 0x66#8], 0x30#8, [0x68#8, 0x69#8]⟩, ⟨[0x64#8, SLASH], DIRTYPE, []⟩]

def fileThenDirMem : Mem
  | 512 => 0x64#8 | 513 => SLASH | 514 => 0x66#8 | 636 => 0x32#8 | 668 => 0x30#8
  | 1024 => 0x68#8 | 1025 => 0x69#8
  | 1536 => 0x64#8 | 1537 => SLASH | 1692 => DIRTYPE
  | _ => 0x00#8

theorem fileThenDir_archive : Archive fileThenDirMem 512 fileThenDir 2560 := by
  apply Archive.entry
  · exact ⟨by decide, by decide, by decide, by decide,
      ⟨[2], by decide, by decide, by decide, by decide, by decide⟩, by decide, by decide⟩
  · apply Archive.entry
    · exact ⟨by decide, by decide, by decide, by decide,
        ⟨[], by decide, by decide, by decide, by decide, by decide⟩, by decide, by decide⟩
    · exact .zeros (by decide +kernel)

theorem archive_mounted_fileThenDir :
    ∃ fs k', { Kernel.initial with mem := fileThenDirMem }.initrdCreate 64 3 512 [] =
      some (fs, k') ∧ ArchiveMounted 64 512 2560 fileThenDir k' :=
  archive_mounted (.init rfl) Hashtable.zeroed_unused fileThenDir_archive (by decide)
    (by decide) (by decide) ⟨by decide, by decide, by decide⟩ (by decide +kernel) (by decide) []

example : ({ Kernel.initial with mem := fileThenDirMem }.initrdCreate 64 3 512 []).map
    (fun r : Int × Kernel Devices =>
    let k := { r.2 with procs := (r.2.procs.create default [] 0).2.setCurrent 1 }
    let (lfd, k) := k.fdOpen (vtables 64) (k.vfs.getInode [0x64#8, SLASH, 0x66#8])
    Kernel.fdReads 64 lfd [(4096, 2), (4096, 8)] k) = some [0x68#8, 0x69#8] := by decide +kernel

/-- An archive without members: the root resolves all the same. -/
theorem empty_archive_not_mounted :
    Archive Kernel.initial.mem 512 [] 1024 ∧ WellNamed [] ∧
    (Kernel.initial.initrdCreate 64 2 512 []).map (fun r => r.2.vfs.getInode []) = some 0 ∧
    ∀ fs k', Kernel.initial.initrdCreate 64 2 512 [] = some (fs, k') →
      ¬ ArchiveMounted 64 512 1024 [] k' := by
  have hroot : (Kernel.initial.initrdCreate 64 2 512 []).map (fun r => r.2.vfs.getInode []) =
    some 0 := by decide +kernel
  refine ⟨.zeros fun _ _ => rfl, ⟨by decide, by decide, by decide⟩, hroot, fun fs k' he h => ?_⟩
  rw [he] at hroot
  have hid : k'.vfs.getInode [] = 0 := Option.some.inj hroot
  have hvalid : k'.vfs.getInode [] ≠ ID_INVALID := by
    rw [hid]
    decide
  obtain ⟨e, hmem, _⟩ := (h.valid []).1 hvalid
  cases hmem

end Tupai
