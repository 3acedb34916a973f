import Tupai.Archive

namespace Tupai
open Lib
set_option autoImplicit true

/-- What `initrd_create` leaves alone. -/
structure SameFds (k k' : Kernel Devices) : Prop where
  procs : k'.procs = k.procs
  mem : k'.mem = k.mem
  fdTable : k'.vfs.fdTable = k.vfs.fdTable
  fdCounter : k'.vfs.fdCounter = k.vfs.fdCounter

/-- The loop over the headers makes inodes and nothing else. -/
structure OnlyInodes (k k' : Kernel Devices) : Prop extends SameFds k k' where
  fsTable : k'.vfs.fsTable = k.vfs.fsTable
  fsCounter : k'.vfs.fsCounter = k.vfs.fsCounter
  grows : k.vfs.inodeTable.size ≤ k'.vfs.inodeTable.size

variable {k k' : Kernel Devices} {t : PathTree Chars Node}

theorem SameFds.trans (h : SameFds k k') (h' : SameFds k' k'') : SameFds k k'' :=
  ⟨h'.procs.trans h.procs, h'.mem.trans h.mem, h'.fdTable.trans h.fdTable,
    h'.fdCounter.trans h.fdCounter⟩

theorem OnlyInodes.refl (k : Kernel Devices) : OnlyInodes k k :=
  ⟨⟨rfl, rfl, rfl, rfl⟩, rfl, rfl, le_refl _⟩

theorem OnlyInodes.trans (h : OnlyInodes k k') (h' : OnlyInodes k' k'') : OnlyInodes k k'' :=
  ⟨h.toSameFds.trans h'.toSameFds, h'.fsTable.trans h.fsTable, h'.fsCounter.trans h.fsCounter,
    h.grows.trans h'.grows⟩

theorem Hashtable.size_le_add (h : Hashtable T) (key : Int) (item : T) :
    h.size ≤ (h.add key item).2.size := by
  rw [Hashtable.add]
  cases h.freeSlot key with
  | none => exact le_refl _
  | some i => exact Int.toNat_le_toNat (Int.le_add_one (le_refl _))

theorem makeElement_onlyInodes (w : Nat) (k : Kernel Devices) (fs : Int) (header : Nat)
    (buff : Chars) (last : Bool) (cinode : Int) :
    OnlyInodes k (k.makeElement w fs header buff last cinode).2 := by
  rw [Kernel.makeElement]
  dsimp only
  generalize (if last = true then _ else InodeType.DIRECTORY) = type
  have hadd : k.vfs.inodeTable.size ≤ (k.vfs.createInode type).2.inodeTable.size :=
    Hashtable.size_le_add ..
  simp only [Vfs.setVtable, Vfs.mountChild, Vfs.setFs, Vfs.modifyInode_snd]
  split_ifs <;>
    exact ⟨⟨rfl, rfl, rfl, rfl⟩, rfl, rfl, by simpa only [Hashtable.size_modify] using hadd⟩

theorem mountElements_onlyInodes (w : Nat) (fs : Int) (header : Nat) (filename : Chars)
    (rounds i : Nat) (cinode : Int) (k : Kernel Devices) :
    OnlyInodes k (Kernel.mountElements w fs header filename rounds i cinode k) := by
  induction rounds generalizing i cinode k with
  | zero => exact .refl k
  | succ rounds ih =>
    rw [Kernel.mountElements]
    split_ifs
    · exact ih _ _ k
    · exact (makeElement_onlyInodes w k fs header _ _ cinode).trans (ih _ _ _)

theorem mountArchive_onlyInodes (h : Kernel.mountArchive w fs fuel header k = some k') :
    OnlyInodes k k' := by
  induction fuel generalizing header k with
  | zero => cases h
  | succ fuel ih =>
    rw [Kernel.mountArchive] at h
    split_ifs at h
    · cases h
      exact .refl _
    · exact (mountElements_onlyInodes ..).trans (ih h)

/-- The paths of an archive that need an inode, and the root. -/
def nodePaths (es : List TarEntry) : Finset (List Chars) := insert [] (prefixes es)

def inodesFor (es : List TarEntry) : Nat := (prefixes es).card + 1

theorem nodePaths_card (es : List TarEntry) : (nodePaths es).card = inodesFor es :=
  Finset.card_insert_of_notMem fun h => (mem_prefixes.1 h).1 rfl

theorem populated_domain {done : List (Nat × TarEntry)} (ha : Archive mem start es stop)
    (hpop : PathTree.Populated IsInner (done.map entryLeaf) t)
    (hdone : ∀ d, d ∈ done ↔ d ∈ placed start es) (p : List Chars) :
    t p ≠ none ↔ p ∈ nodePaths es := by
  rw [hpop.domain, nodePaths, Finset.mem_insert, mem_prefixes]
  constructor
  · rintro (hp | ⟨l, hl, hpre⟩)
    · exact .inl hp
    · obtain ⟨d, hd, rfl⟩ := List.mem_map.1 hl
      exact (eq_or_ne p []).imp_right fun hp =>
        ⟨hp, d.2, (ha.placed ((hdone d).1 hd)).1, hpre⟩
  · rintro (hp | ⟨_, e, he, hpre⟩)
    · exact .inl hp
    · obtain ⟨header, hd⟩ := placed_onto start he
      exact .inr ⟨_, List.mem_map_of_mem ((hdone _).2 hd), hpre⟩

theorem withRoot_sameFds (k : Kernel Devices) (name : Chars) :
    SameFds k (k.withRoot name) ∧ (k.withRoot name).vfs.fsTable = (k.vfs.createFs name).2.fsTable ∧
      (k.withRoot name).vfs.fsCounter = (k.vfs.createFs name).2.fsCounter := by
  refine ⟨⟨rfl, rfl, ?_, ?_⟩, rfl, rfl⟩
  all_goals
    rw [Kernel.withRoot, Vfs.setRoot, Vfs.createFs]
    dsimp only
    rw [Vfs.setFs, Vfs.modifyInode_snd]
    rfl

theorem initrdCreate_sameFds (h : k.initrdCreate w fuel start name = some (fs, k')) :
    SameFds k k' := by
  obtain ⟨k₁, hrun, he⟩ := Option.map_eq_some_iff.1 h
  cases he
  exact (withRoot_sameFds k name).1.trans (mountArchive_onlyInodes hrun).toSameFds

theorem OnlyInodes.mountOk (h : OnlyInodes k k') (ok : k.vfs.Ok) (h' : InodesOk k') :
    MountOk k' where
  vfs :=
    { fsOk := h.fsTable ▸ ok.fsOk
      fsKeys := by
        rw [h.fsTable, h.fsCounter]
        exact ok.fsKeys
      inodeOk := h'.inodeOk
      inodeKeys := h'.inodeKeys
      counter := h'.counter
      roots := by
        rw [h.fsTable]
        exact ok.roots.trans h.grows }
  filesOk := h'.filesOk
  fileKeys := h'.fileKeys
  filesSize := h'.filesSize

/-- `initrd_create` mounts an archive, and needs an inode for the root and for each path in it. -/
theorem MountOk.initrdCreate (ok : MountOk k) (ha : Archive k.mem start es stop)
    (hstart : start ≠ 0) (hstop : stop ≤ 2 ^ w) (hes : es ≠ []) (hnames : WellNamed es)
    (hroom : k.vfs.inodeTable.size + inodesFor es ≤ HASHTABLE_CAPACITY)
    (hfuel : es.length < fuel) (name : Chars) :
    ∃ fs k' t, ∃ done : List (Nat × TarEntry),
      k.initrdCreate w fuel start name = some (fs, k') ∧ Mounted k' t ∧
      PathTree.Populated IsInner (done.map entryLeaf) t ∧ (∀ d, d ∈ done ↔ d ∈ placed start es) ∧
      SameFds k k' ∧ MountOk k' ∧
      k'.vfs.inodeTable.size ≤ k.vfs.inodeTable.size + inodesFor es := by
  have hpos : 0 < inodesFor es := Nat.succ_pos _
  obtain ⟨h, hsize⟩ := ok.withRoot (by omega) name
  -- As many paths as there is room for: those that are not in the archive stay missing.
  obtain ⟨S, hS, hScard⟩ := Infinite.exists_superset_card_eq (nodePaths es)
    (HASHTABLE_CAPACITY - k.vfs.inodeTable.size) (by rw [nodePaths_card]; omega)
  have hroot : {[]} ⊆ S := Finset.singleton_subset_iff.2 (hS (Finset.mem_insert_self ..))
  have hbefore := PathTree.missing_add (t := rootTree k.vfs.inodeCounter) hroot fun p => by
    rw [(rootTree_populated _).domain]
    simp
  have hroom' : (k.withRoot name).RoomFor S (rootTree k.vfs.inodeCounter) := by
    rw [Kernel.RoomFor]
    rw [Finset.card_singleton] at hbefore
    omega
  have ha' : Archive (k.withRoot name).mem start es stop := ha
  have hcreate : k.initrdCreate w fuel start name =
      (Kernel.mountArchive w (k.vfs.createFs name).1 fuel start (k.withRoot name)).map
        fun k' => ((k.vfs.createFs name).1, k') := rfl
  have hpop₀ : PathTree.Populated IsInner (([] : List (Nat × TarEntry)).map entryLeaf)
      (rootTree k.vfs.inodeCounter) := rootTree_populated _
  obtain ⟨k', t', done, hrun, h', hpop, hdone, hmem, hroom''⟩ := h.mountArchive_room ha' hstop
    hstart hes hpop₀ hnames.named hnames.follows (fun d hd => absurd hd List.not_mem_nil)
    (fun e he p hp hpre => hS (Finset.mem_insert_of_mem (mem_prefixes.2 ⟨hp, e, he, hpre⟩)))
    hroom' hfuel (k.vfs.createFs name).1
  have hall : ∀ d, d ∈ done ↔ d ∈ placed start es := fun d => by
    rw [hdone, or_iff_right List.not_mem_nil]
  have hafter := PathTree.missing_add hS (populated_domain ha hpop hall)
  have hresult : k.initrdCreate w fuel start name = some ((k.vfs.createFs name).1, k') := by
    rw [hcreate, hrun]
    rfl
  refine ⟨_, k', t', done, hresult, h', hpop, hall, initrdCreate_sameFds hresult, ?_, ?_⟩
  · have hvfs := ok.vfs.createFs name
    have hroot : (k.withRoot name).vfs.Ok :=
      ⟨hvfs.fsOk, hvfs.fsKeys, hvfs.inodeOk, hvfs.inodeKeys, hvfs.counter, hvfs.roots⟩
    exact (mountArchive_onlyInodes hrun).mountOk hroot h'.ok
  · rw [Kernel.RoomFor] at hroom''
    rw [nodePaths_card] at hafter
    omega

end Tupai
