import Tupai.Cache
import Tupai.Cat

namespace Tupai
open Lib
set_option autoImplicit true

/-- The loop of `initrd_init` over the cache. -/
def Kernel.initrdInit (w fuel : Nat) : (initrds : List InitrdT) → Kernel Devices →
    Option (Kernel Devices)
  | [], k => some k
  | initrd :: initrds, k =>
    if initrd.size ≠ 0 then
      (k.initrdCreate w fuel initrd.start INITRD).bind fun r => initrdInit w fuel initrds r.2
    else initrdInit w fuel initrds k

/-- An archive in memory. -/
structure Image where
  start : Nat
  stop : Nat
  es : List TarEntry

/-- The archive is there, and can be mounted. -/
structure Image.Ok (w fuel : Nat) (mem : Mem) (im : Image) : Prop where
  archive : Archive mem im.start im.es im.stop
  start_ne : im.start ≠ 0
  stop_le : im.stop ≤ 2 ^ w
  members : im.es ≠ []
  named : WellNamed im.es
  few : im.es.length < fuel

/-- The filesystem shows the archive, and its regular files can be read. -/
structure ShowsImage (w : Nat) (im : Image) (k : Kernel Devices) : Prop where
  mounted : ArchiveMounted w im.start im.stop im.es k
  files : ∀ file, NamesFile im.es file → HasFile w im.start im.stop k file.1 file.2.data

/-- The inodes that the archives need. -/
def inodesForAll (images : List Image) : Nat := (images.map fun im => inodesFor im.es).sum

variable {k k' : Kernel Devices} {w : Nat} {im : Image}

theorem Image.Ok.mount (h : im.Ok w fuel k.mem) (ok : MountOk k)
    (hroom : k.vfs.inodeTable.size + inodesFor im.es ≤ HASHTABLE_CAPACITY) (name : Chars) :
    ∃ fs k', k.initrdCreate w fuel im.start name = some (fs, k') ∧ ShowsImage w im k' ∧
      SameFds k k' ∧ MountOk k' ∧
      k'.vfs.inodeTable.size ≤ k.vfs.inodeTable.size + inodesFor im.es := by
  obtain ⟨fs, k', t, done, hcreate, hmounted, hpop, hdone, hsame, hok, hsize⟩ :=
    ok.initrdCreate h.archive h.start_ne h.stop_le h.members h.named hroom h.few name
  have ha : Archive k'.mem im.start im.es im.stop := hsame.mem ▸ h.archive
  refine ⟨fs, k', hcreate, ⟨?_, ?_⟩, hsame, hok, hsize⟩
  · exact hmounted.archive ha h.stop_le h.members hpop hdone
  · rintro file ⟨hmem, hflag, hpath⟩
    exact hmounted.hasFiles ha h.stop_le hpop hdone hmem hflag hpath

/-- Each archive in the cache gets a filesystem, and the root is that of the last one. -/
theorem initrdInit_mounts {images : List Image} (ok : MountOk k)
    (hstarts : (usedEntries initrds).map InitrdT.start = images.map Image.start)
    (hok : ∀ im ∈ images, im.Ok w fuel k.mem)
    (hroom : k.vfs.inodeTable.size + inodesForAll images ≤ HASHTABLE_CAPACITY) :
    ∃ k', Kernel.initrdInit w fuel initrds k = some k' ∧ SameFds k k' ∧
      (images = [] → k' = k) ∧ ∀ im, images.getLast? = some im → ShowsImage w im k' := by
  induction initrds generalizing images k with
  | nil =>
    cases images with
    | nil => exact ⟨k, rfl, ⟨rfl, rfl, rfl, rfl⟩, fun _ => rfl, fun im hlast => by cases hlast⟩
    | cons im images => cases hstarts
  | cons initrd initrds ih =>
    rw [Kernel.initrdInit]
    by_cases hused : initrd.size ≠ 0
    · rw [if_pos hused]
      rw [usedEntries_used hused] at hstarts
      cases images with
      | nil => cases hstarts
      | cons im images =>
        obtain ⟨hstart, hstarts⟩ := List.cons.inj hstarts
        obtain ⟨him, hrest⟩ := List.forall_mem_cons.1 hok
        rw [inodesForAll, List.map_cons, List.sum_cons, ← inodesForAll] at hroom
        obtain ⟨fs, k₁, hcreate, hshows, hsame, ok₁, hsize⟩ := him.mount ok (by omega) INITRD
        obtain ⟨k', hinit, hsame', hempty, hlast⟩ := ih ok₁ hstarts
          (fun im' h => hsame.mem.symm ▸ hrest im' h) (by omega)
        refine ⟨k', ?_, hsame.trans hsame', fun h => (by cases h), fun im' him' => ?_⟩
        · rw [show initrd.start = im.start from hstart, hcreate]
          exact hinit
        · cases images with
          | nil =>
            cases him'
            rw [hempty rfl]
            exact hshows
          | cons im₂ images => exact hlast im' him'
    · rw [if_neg hused]
      rw [usedEntries_free hused] at hstarts
      exact ih ok hstarts hok hroom

/-- An archive that the boot loader put into memory as a module with the argument `initrd`. -/
structure BootImage where
  placed : Placed
  length : Nat
  es : List TarEntry

namespace BootImage

structure Ok (mem : Mem) (i : BootImage) : Prop where
  archive : Archive mem i.placed.tag.start i.es (i.placed.tag.start + i.length)
  inside : i.length ≤ i.placed.tag.bytes
  members : i.es ≠ []
  named : WellNamed i.es

/-- The archive at the virtual address of its copy. -/
def image (a : Arch) (i : BootImage) : Image :=
  ⟨(i.placed.copy a).1, (i.placed.copy a).1 + i.length, i.es⟩

end BootImage

/-- The kernel when its constructors have run, with the memory that the boot code leaves. -/
def Kernel.afterBoot (a : Arch) (s : Boot) : Kernel Devices :=
  { Kernel.initial with mem := fun v => s.mem (a.phys v) }

theorem TarAt.moved (h : TarAt mem header e)
    (hmem : ∀ i < e.extent, mem' (header' + i) = mem (header + i)) : TarAt mem' header' e := by
  have hext : e.extent = 512 + 512 * ((e.data.length + 511) / 512) := rfl
  obtain ⟨hlen₁, hlen₂⟩ := h.nameLen
  obtain ⟨digits, hlen, hd, hs, hend, hval⟩ := h.size
  have hfield : TAR_SIZE = 124 := rfl
  have hflag : TAR_TYPEFLAG = 156 := rfl
  refine ⟨fun i hi => ?_, ?_, h.nameChars, h.nameLen,
    ⟨digits, hlen, hd, fun i hi => ?_, fun hlt => ?_, hval⟩, ?_, fun i hi => ?_⟩
  · rw [hmem _ (by omega)]
    exact h.name i hi
  · rw [hmem _ (by omega)]
    exact h.nameEnd
  · rw [Nat.add_assoc, hmem _ (by omega), ← Nat.add_assoc]
    exact hs i hi
  · rw [Nat.add_assoc, hmem _ (by omega), ← Nat.add_assoc]
    exact hend hlt
  · rw [hmem _ (by omega)]
    exact h.typeflag
  · rw [Nat.add_assoc, hmem _ (by omega), ← Nat.add_assoc]
    exact h.data i hi

/-- An archive can be moved. -/
theorem Archive.moved (h : Archive mem header es stop) (hlen : stop = header + n)
    (hmem : ∀ i < n, mem' (header' + i) = mem (header + i)) :
    Archive mem' header' es (header' + n) := by
  induction h generalizing header' n with
  | zeros hz =>
    obtain rfl := Nat.add_left_cancel hlen
    exact .zeros fun i hi => (hmem i hi).trans (hz i hi)
  | @entry header e es stop he ha ih =>
    have hle := ha.le
    obtain ⟨m, rfl⟩ : ∃ m, n = e.extent + m := Nat.exists_eq_add_of_le (by omega)
    have hrest := @ih m (header' + e.extent) (by omega) fun i hi => by
      rw [Nat.add_assoc, hmem _ (by omega), Nat.add_assoc]
    rw [Nat.add_assoc] at hrest
    exact .entry (he.moved fun i hi => hmem i (by omega)) hrest

section Modules

variable {a : Arch} {mem : Mem} {s : Boot} {t : MbTag}

theorem MbTag.At.modSize_eq (h : t.At mem p) (ht : t.type = 3) : t.modSize = t.bytes :=
  wrapSub_of_le (h.ordered ht) (h.stop ht ▸ Mem.word_lt ..)

theorem MbTag.At.usedBy_eq (h : t.At mem p) (used : Nat) : usedBy a used t = usedPast a used t := by
  rw [usedBy, usedPast]
  by_cases ht : t.type = 3
  · rw [if_pos ht, if_pos ht, h.modSize_eq ht]
  · rw [if_neg ht, if_neg ht]

/-- A module is relocated to where the cache says, and it fits there. -/
theorem placeTags_relocation (h : TagsAt mem p tags)
    (hfits : a.Fits used ((modules tags).map MbTag.bytes)) (hx : x ∈ placeTags a p used tags)
    (ht : x.tag.type = 3) :
    relocation a x.used x.tag ∈ relocations a used tags ∧
      a.kernelEnd + a.usedAfter x.used x.tag.bytes + a.offset < 2 ^ a.width ∧
      x.tag.modSize = x.tag.bytes := by
  induction tags generalizing p used with
  | nil => cases hx
  | cons t tags ih =>
    rw [placeTags, h.1.usedBy_eq] at hx
    rcases List.mem_cons.1 hx with rfl | hx
    · rw [relocations_module ht]
      exact ⟨List.mem_cons_self, fits_module ht hfits, h.1.modSize_eq ht⟩
    · obtain ⟨hmem, hrest⟩ := ih h.2 (fits_tail hfits) hx
      refine ⟨?_, hrest⟩
      by_cases ht' : t.type = 3
      · rw [relocations_module ht']
        exact List.mem_cons_of_mem _ hmem
      · rw [relocations_other ht']
        rwa [usedPast_other ht'] at hmem

/-- Where no module is copied over the information structure, the fields in it are clear. -/
theorem Spares.clear (h : Spares a block used tags) (hat : TagsAt mem p tags)
    (hfits : a.Fits used ((modules tags).map MbTag.bytes))
    (hblock : Set.Ico p (p + tagsSize tags) ⊆ block) : TagsClear a p used tags := by
  induction tags generalizing p used with
  | nil => trivial
  | cons t tags ih =>
    have hpadded := t.le_padded
    rw [tagsSize_cons] at hblock
    have hrest : Set.Ico (p + t.padded) (p + t.padded + tagsSize tags) ⊆ block :=
      (Set.Ico_subset_Ico (by omega) (by omega)).trans hblock
    have hspares := h.2
    rw [hat.1.usedBy_eq] at hspares
    refine ⟨fun ht => ?_, ih hspares hat.2 (fits_tail hfits) hrest⟩
    have hmodule := hat.1.module ht
    have hmod := hat.1.modSize_eq ht
    have hfit := fits_module ht hfits
    have hplace := a.place_add_le used t.bytes
    rw [relocation_eq hfit, Set.disjoint_left]
    intro x hx hfield
    obtain ⟨i, hi, rfl⟩ := Copy.exists_mem_source (c := ⟨a.place used, 0, t.bytes⟩) hx
    dsimp only at hi hfield
    have hout := h.1 ht i (hmod ▸ hi)
    have hswap : a.place used + a.offset + i = a.place used + i + a.offset := by omega
    rw [hmod, Arch.kernelAlloc_eq hfit, hswap, Arch.phys_high (by omega)] at hout
    refine hout (hblock ?_)
    rcases hfield with hfield | hfield
    · exact Set.Ico_subset_Ico (by omega) (by omega) hfield
    · exact Set.Ico_subset_Ico (by omega) (by omega) (hat.2.fields_subset hfield)

/-- After the boot code, a module is in the kernel's half of the address space. -/
theorem module_copied (ha : a.IsX86) (hl : Loaded a kernelStart header tags s)
    (hb : Block a header tags s) (hsafe : Copy.Safe (relocations a s.kernelEndOffset tags))
    (hx : x ∈ placeTags a (header + 8) s.kernelEndOffset tags) (ht : x.tag.type = 3) :
    a.offset ≤ (x.copy a).1 ∧ (x.copy a).1 + x.tag.bytes ≤ 2 ^ a.width ∧
      ∀ i < x.tag.bytes, (Kernel.afterBoot a (s.multibootSetHeader a MULTIBOOT_EAX_MAGIC header)).mem
        ((x.copy a).1 + i) = s.mem (x.tag.start + i) := by
  obtain ⟨hmem, hfit, hmod⟩ := placeTags_relocation hl.listed hl.fits hx ht
  have hplace := a.place_add_le x.used x.tag.bytes
  have hclear := hb.spared.clear hl.listed hl.fits (Set.Ico_subset_Ico_left (Nat.le_add_right ..))
  have hrun := (hl.ready hclear).parseTags_eqOn ha (Nat.le_add_right ..) hl.few
  have hdone := hsafe.done (relocations_apart hl.fits) s.mem _ hmem
  have hcopied := hdone.congr (hrun.mono fun y hy => .inr ⟨_, hmem, hy⟩)
  rw [relocation_eq hfit] at hcopied
  have hcopy : (x.copy a).1 = a.place x.used + a.offset := by
    rw [Placed.copy, hmod, Arch.kernelAlloc_eq hfit]
  rw [hcopy, multibootSetHeader_eq ha hl.aligned hl.total hl.mapped]
  refine ⟨Nat.le_add_left .., by omega, fun i hi => ?_⟩
  have hphys : a.phys (a.place x.used + a.offset + i) = a.place x.used + i := by
    rw [Arch.phys, if_pos (by omega)]
    omega
  rw [← hcopied i hi, Kernel.afterBoot]
  dsimp only
  rw [hphys]

theorem Arch.IsX86.offset_pos (ha : a.IsX86) : 0 < a.offset := by
  rcases ha with ha | ha
  · rw [ha]
    exact show 0 < 0xFFFFFFFF80000000 by decide
  · rw [ha]
    exact show 0 < 0xC0000000 by decide

/-- The size that is recorded is wrong, but it is not 0. -/
theorem entry_used (ha : a.IsX86) (x : Placed)
    (hfit : a.kernelEnd + a.usedAfter x.used x.tag.bytes + a.offset < 2 ^ a.width)
    (hmod : x.tag.modSize = x.tag.bytes) : (x.entry a).Used := by
  have hpages : ∃ q, pageCeiling x.tag.bytes = 4096 * q := ⟨_, rfl⟩
  obtain ⟨q, hq⟩ := hpages
  have hle := le_pageCeiling x.tag.bytes
  rw [Arch.usedAfter] at hfit
  rw [InitrdT.Used, Placed.entry]
  dsimp only
  rw [hmod]
  generalize x.tag.bytes = n at hq hle hfit
  generalize pageCeiling (a.kernelEnd + x.used) - a.kernelEnd = m at hfit
  rw [hq] at hfit hle
  rw [wrap, wrap]
  rcases ha with ha | ha
  · rw [ha] at hfit ⊢
    change a.kernelEnd + (x.used + m + 4096 * q) + 0xFFFFFFFF80000000 < 2 ^ 64 at hfit
    change ((n + 1) % 2 ^ 32 + 0xFFFFFFFF80000000) % 2 ^ 64 ≠ 0
    omega
  · rw [ha] at hfit ⊢
    change a.kernelEnd + (x.used + m + 4096 * q) + 0xC0000000 < 2 ^ 32 at hfit
    change ((n + 1) % 2 ^ 32 + 0xC0000000) % 2 ^ 32 ≠ 0
    omega

theorem BootImage.Ok.image {i : BootImage} (h : i.Ok mem)
    (hlo : a.offset ≤ (i.placed.copy a).1) (hpos : 0 < a.offset)
    (hhi : (i.placed.copy a).1 + i.placed.tag.bytes ≤ 2 ^ a.width)
    (hmem : ∀ j < i.placed.tag.bytes,
      mem' ((i.placed.copy a).1 + j) = mem (i.placed.tag.start + j))
    (hfew : i.es.length < fuel) : (i.image a).Ok a.width fuel mem' where
  archive := h.archive.moved rfl fun j hj => hmem j (Nat.lt_of_lt_of_le hj h.inside)
  start_ne := Nat.ne_of_gt (Nat.lt_of_lt_of_le hpos hlo)
  stop_le := (Nat.add_le_add_left h.inside _).trans hhi
  members := h.members
  named := h.named
  few := hfew

theorem initrd_placed {images : List BootImage} (himages : images.map BootImage.placed =
    initrdTags a mem p used tags) (hi : i ∈ images) :
    i.placed ∈ placeTags a p used tags ∧ i.placed.tag.type = 3 := by
  have hmem := List.mem_map_of_mem (f := BootImage.placed) hi
  rw [himages] at hmem
  obtain ⟨hmem, hinitrd⟩ := List.mem_filter.1 hmem
  exact ⟨hmem, (of_decide_eq_true hinitrd).1⟩

/-- The cache leads to the archives, which are in memory with all their bytes. -/
theorem boot_images (ha : a.IsX86) (hl : Loaded a kernelStart header tags s)
    (hb : Block a header tags s) (hfree : Unused s.initrds)
    (hsafe : Copy.Safe (relocations a s.kernelEndOffset tags)) {images : List BootImage}
    (himages : images.map BootImage.placed =
      initrdTags a s.mem (header + 8) s.kernelEndOffset tags)
    (hfew : images.length ≤ INITRD_MAX) (hok : ∀ i ∈ images, i.Ok s.mem ∧ i.es.length < fuel) :
    let s' := s.multibootSetHeader a MULTIBOOT_EAX_MAGIC header
    (usedEntries s'.initrds).map InitrdT.start =
        (images.map (BootImage.image a)).map Image.start ∧
      ∀ im ∈ images.map (BootImage.image a), im.Ok a.width fuel (Kernel.afterBoot a s').mem := by
  intro s'
  have hused : ∀ e ∈ images.map (Placed.entry a ∘ BootImage.placed), InitrdT.Used e := by
    intro e he
    obtain ⟨i, hi, rfl⟩ := List.mem_map.1 he
    obtain ⟨hx, ht⟩ := initrd_placed himages hi
    obtain ⟨-, hfit, hmod⟩ := placeTags_relocation hl.listed hl.fits hx ht
    exact entry_used ha _ hfit hmod
  have hcache : usedEntries s'.initrds = images.map (Placed.entry a ∘ BootImage.placed) := by
    rw [hb.initrds ha hb.sparesNeeded, ← himages, List.map_map,
      hfree.addAll (by rwa [List.length_map])]
    exact List.filter_eq_self.2 fun e he => decide_eq_true (hused e he)
  have hcopied := fun i hi =>
    let ⟨hx, ht⟩ := initrd_placed himages (i := i) hi
    module_copied ha hl hb hsafe hx ht
  constructor
  · rw [hcache, List.map_map, List.map_map]
    refine List.map_congr_left fun i hi => ?_
    exact entry_start ha (hcopied i hi).1 (Nat.mod_lt _ (Nat.two_pow_pos _))
  · intro im him
    obtain ⟨i, hi, rfl⟩ := List.mem_map.1 him
    obtain ⟨hlo, hhi, hmem⟩ := hcopied i hi
    exact (hok i hi).1.image hlo ha.offset_pos hhi hmem (hok i hi).2

theorem inodesForAll_images (images : List BootImage) :
    inodesForAll (images.map (BootImage.image a)) =
      (images.map fun i => inodesFor i.es).sum := by
  rw [inodesForAll, List.map_map]
  rfl

/-- The boot code and `initrd_init` bring the archives that the boot loader left in memory into the
filesystem, where no copy of a module gets to what is still needed. -/
theorem boot_shows (ha : a.IsX86) (hl : Loaded a kernelStart header tags s)
    (hb : Block a header tags s) (hfree : Unused s.initrds)
    (hsafe : Copy.Safe (relocations a s.kernelEndOffset tags)) {images : List BootImage}
    (himages : images.map BootImage.placed =
      initrdTags a s.mem (header + 8) s.kernelEndOffset tags)
    (hfew : images.length ≤ INITRD_MAX) (hok : ∀ i ∈ images, i.Ok s.mem ∧ i.es.length < fuel)
    (hroom : (images.map fun i => inodesFor i.es).sum ≤ HASHTABLE_CAPACITY) :
    let s' := s.multibootSetHeader a MULTIBOOT_EAX_MAGIC header
    ∃ k, Kernel.initrdInit a.width fuel s'.initrds (.afterBoot a s') = some k ∧
      ∀ i, images.getLast? = some i → ShowsImage a.width (i.image a) k := by
  intro s'
  obtain ⟨hstarts, himagesOk⟩ := boot_images ha hl hb hfree hsafe himages hfew hok
  obtain ⟨k, hinit, -, -, hlast⟩ := initrdInit_mounts
    (.unused Vfs.boot_ok Hashtable.zeroed_unused) hstarts himagesOk (by
      rw [inodesForAll_images]
      exact (Nat.zero_add _).trans_le hroom)
  refine ⟨k, hinit, fun i hi => hlast _ ?_⟩
  rw [List.getLast?_map, hi]
  rfl

end Modules

/-- The archive with a file and its directory as a module at 3 MiB. -/
def archiveTag : MbTag := ⟨3, 23, 0x300000, 0x300800⟩

def archiveModule : Boot :=
  let word := fun n => [n, n / 2 ^ 8, n / 2 ^ 16, n / 2 ^ 24]
  let info := [40, 0, 3, 23, 0x300000, 0x300800, 0x74696E69, 0x6472, 0, 8]
  let bytes := info.flatMap word
  ⟨fun x =>
      if x < 0x9000 then 0
      else if x < 0x300000 then BitVec.ofNat 8 (bytes.getD (x - 0x9000) 0)
      else fileThenDirMem (x - 0x300000 + 512),
    0, ⟨0, 0, 0, 0⟩, List.replicate INITRD_MAX ⟨0, 0, 0⟩⟩

def archiveImage : BootImage := ⟨⟨0x9008, 0, archiveTag⟩, 2048, fileThenDir⟩

theorem loaded_archive : Loaded (.amd64 0x101000) 0x100000 0x9000
    [archiveTag, ⟨0, 8, 0, 0⟩] archiveModule := by
  constructor <;> decide

theorem block_archive : Block (.amd64 0x101000) 0x9000 [archiveTag, ⟨0, 8, 0, 0⟩]
    archiveModule where
  aligned := by decide
  total := by decide
  formed := by
    refine ⟨⟨?_, ?_, ?_, ?_⟩, ⟨?_, ?_, ?_, ?_⟩, trivial⟩
    any_goals decide
    all_goals constructor <;> decide
  few := by decide
  ended := ⟨⟨0, 8, 0, 0⟩, rfl, rfl, rfl⟩
  mapped := by decide
  spared := ⟨fun _ => by decide +kernel, fun _ => by decide, trivial⟩

theorem archiveImage_ok : archiveImage.Ok archiveModule.mem where
  archive := fileThenDir_archive.moved (n := 2048) rfl fun i _ => by
    have hat : 0x300000 + i - 0x300000 + 512 = 512 + i := by omega
    rw [archiveModule]
    dsimp only [archiveImage, archiveTag]
    rw [if_neg (by omega), if_neg (by omega), hat]
  inside := by decide
  members := by decide
  named := ⟨by decide, by decide, by decide⟩

theorem boot_shows_archive :
    let s' := archiveModule.multibootSetHeader (.amd64 0x101000) MULTIBOOT_EAX_MAGIC 0x9000
    ∃ k, Kernel.initrdInit 64 3 s'.initrds (.afterBoot (.amd64 0x101000) s') = some k ∧
      ShowsImage 64 (archiveImage.image (.amd64 0x101000)) k := by
  obtain ⟨k, hinit, hlast⟩ := boot_shows (.inl rfl) loaded_archive block_archive unused_replicate
    (by decide) (show [archiveImage].map BootImage.placed = _ from rfl) (by decide)
    (List.forall_mem_singleton.2 ⟨archiveImage_ok, show fileThenDir.length < 3 by decide⟩)
    (by decide +kernel)
  exact ⟨k, hinit, hlast _ rfl⟩

end Tupai
