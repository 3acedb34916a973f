import Tupai.Multiboot

namespace Tupai
open Lib
set_option autoImplicit true

/-- A tag of the multiboot information structure. The last two fields are the range of a module,
and other tags do not use them. -/
structure MbTag where
  type : Nat
  size : Nat
  start : Nat
  stop : Nat

namespace MbTag

/-- The distance to the next tag. -/
def padded (t : MbTag) : Nat := 8 * ((t.size + 7) / 8)

def bytes (t : MbTag) : Nat := t.stop - t.start

def range (t : MbTag) : Set Nat := Set.Ico t.start t.stop

/-- Where the tag at `p` holds what its relocation needs. -/
def fields (t : MbTag) (p : Nat) : Set Nat := Set.Ico p (p + if t.type = 3 then 16 else 8)

structure At (t : MbTag) (mem : Mem) (p : Nat) : Prop where
  type : mem.word p = t.type
  size : mem.word (p + 4) = t.size
  header : 8 ≤ t.size
  module : t.type = 3 → 16 ≤ t.size
  start : t.type = 3 → mem.word (p + 8) = t.start
  stop : t.type = 3 → mem.word (p + 12) = t.stop
  ordered : t.type = 3 → t.start ≤ t.stop

instance (t : MbTag) (mem : Mem) (p : Nat) : Decidable (t.At mem p) :=
  decidable_of_iff (mem.word p = t.type ∧ mem.word (p + 4) = t.size ∧ 8 ≤ t.size ∧
    (t.type = 3 → 16 ≤ t.size ∧ mem.word (p + 8) = t.start ∧ mem.word (p + 12) = t.stop ∧
      t.start ≤ t.stop))
    ⟨fun ⟨h₀, h₁, h₂, h⟩ => ⟨h₀, h₁, h₂, fun ht => (h ht).1, fun ht => (h ht).2.1,
      fun ht => (h ht).2.2.1, fun ht => (h ht).2.2.2⟩,
    fun h => ⟨h.type, h.size, h.header, fun ht => ⟨h.module ht, h.start ht, h.stop ht,
      h.ordered ht⟩⟩⟩

instance (t : MbTag) (lo hi : Nat) : Decidable (Disjoint t.range (Set.Ico lo hi)) :=
  inferInstanceAs (Decidable (Disjoint (Set.Ico _ _) (Set.Ico _ _)))

instance (t u : MbTag) : Decidable (Disjoint t.range u.range) :=
  inferInstanceAs (Decidable (Disjoint (Set.Ico _ _) (Set.Ico _ _)))

end MbTag

def modules (tags : List MbTag) : List MbTag := tags.filter (·.type = 3)

def tagsSize (tags : List MbTag) : Nat := (tags.map MbTag.padded).sum

/-- The tags are in memory from a physical address on. -/
def TagsAt (mem : Mem) : (p : Nat) → (tags : List MbTag) → Prop
  | _, [] => True
  | p, t :: tags => t.At mem p ∧ TagsAt mem (p + t.padded) tags

instance (mem : Mem) : (p : Nat) → (tags : List MbTag) → Decidable (TagsAt mem p tags)
  | _, [] => inferInstanceAs (Decidable True)
  | p, t :: tags =>
    have := instDecidableTagsAt mem (p + t.padded) tags
    inferInstanceAs (Decidable (_ ∧ _))

def tagFields : (p : Nat) → (tags : List MbTag) → Set Nat
  | _, [] => ∅
  | p, t :: tags => t.fields p ∪ tagFields (p + t.padded) tags

/-- The relocation of a module to the address that `arch_kernel_alloc` returns for it. -/
def relocation (a : Arch) (used : Nat) (t : MbTag) : Copy :=
  ⟨t.start, a.phys (a.kernelAlloc used t.bytes).1, t.bytes⟩

/-- What `kernel_end_offset` is when a tag was processed. -/
def usedPast (a : Arch) (used : Nat) (t : MbTag) : Nat :=
  if t.type = 3 then (a.kernelAlloc used t.bytes).2 else used

/-- The relocations that a list of tags asks for, one after the other. -/
def relocations (a : Arch) : (used : Nat) → (tags : List MbTag) → List Copy
  | _, [] => []
  | used, t :: tags =>
    let rest := relocations a (usedPast a used t) tags
    if t.type = 3 then relocation a used t :: rest else rest

/-- No destination lies over fields that are used after the copy: those of later tags, and the
size, the start and the end in the module's own tag. -/
def TagsClear (a : Arch) : (p used : Nat) → (tags : List MbTag) → Prop
  | _, _, [] => True
  | p, used, t :: tags =>
    (t.type = 3 → Disjoint (relocation a used t).dest
      (Set.Ico (p + 4) (p + 16) ∪ tagFields (p + t.padded) tags)) ∧
    TagsClear a (p + t.padded) (usedPast a used t) tags

def Arch.IsX86 (a : Arch) : Prop := a = .amd64 a.kernelEnd ∨ a = .i386 a.kernelEnd

def infoEnd (header : Nat) (tags : List MbTag) : Nat := header + 8 + tagsSize tags

/-- What the boot loader leaves in memory: the information structure at `header`, and its modules
in low memory, apart from each other, from the kernel and from the structure. -/
structure Loaded (a : Arch) (kernelStart header : Nat) (tags : List MbTag) (s : Boot) : Prop where
  aligned : 8 ∣ header
  total : s.mem.word header = 8 + tagsSize tags
  listed : TagsAt s.mem (header + 8) tags
  few : tags.length ≤ MAX_TAGS
  mapped : infoEnd header tags + a.offset < 2 ^ a.width
  low : ∀ t ∈ modules tags, t.stop ≤ a.offset
  fits : a.Fits s.kernelEndOffset ((modules tags).map MbTag.bytes)
  apart : (modules tags).Pairwise fun t u => Disjoint t.range u.range
  kernel : ∀ t ∈ modules tags, Disjoint t.range (Set.Ico kernelStart a.kernelEnd)
  info : ∀ t ∈ modules tags, Disjoint t.range (Set.Ico header (infoEnd header tags))

/-- Every module is at its new place what it was at its old one. -/
def Preserved (cs : List Copy) (mem mem' : Mem) : Prop := ∀ c ∈ cs, c.Done mem mem'

/-- Every module is kept by the relocation of all modules, whatever is in memory beside the
information structure. -/
def KeepsModules (a : Arch) (header : Nat) (tags : List MbTag) (s : Boot) : Prop :=
  ∀ mem : Mem, Set.EqOn mem s.mem (Set.Ico header (infoEnd header tags)) →
    Preserved (relocations a s.kernelEndOffset tags) mem
      (({ s with mem := mem } : Boot).multibootSetHeader a MULTIBOOT_EAX_MAGIC header).mem

instance (cs : List Copy) (mem mem' : Mem) : Decidable (Preserved cs mem mem') :=
  inferInstanceAs (Decidable (∀ c ∈ cs, ∀ i < c.len, mem' (c.dst + i) = mem (c.src + i)))

instance decidableSpares (c : Copy) : (p : Nat) → (tags : List MbTag) →
    Decidable (Disjoint c.dest (tagFields p tags))
  | _, [] => .isTrue (Set.disjoint_empty _)
  | p, t :: tags =>
    have := decidableSpares c (p + t.padded) tags
    have : Decidable (Disjoint c.dest (t.fields p)) :=
      inferInstanceAs (Decidable (Disjoint (Set.Ico _ _) (Set.Ico _ _)))
    decidable_of_iff _ Set.disjoint_union_right.symm

instance (a : Arch) : (p used : Nat) → (tags : List MbTag) → Decidable (TagsClear a p used tags)
  | _, _, [] => inferInstanceAs (Decidable True)
  | p, used, t :: tags =>
    have := instDecidableTagsClear a (p + t.padded) (usedPast a used t) tags
    have : Decidable (Disjoint (relocation a used t).dest (Set.Ico (p + 4) (p + 16))) :=
      inferInstanceAs (Decidable (Disjoint (Set.Ico _ _) (Set.Ico _ _)))
    have : Decidable (Disjoint (relocation a used t).dest
        (Set.Ico (p + 4) (p + 16) ∪ tagFields (p + t.padded) tags)) :=
      decidable_of_iff _ Set.disjoint_union_right.symm
    inferInstanceAs (Decidable (_ ∧ _))

variable {mem mem' : Mem}

theorem modules_cons_module (ht : t.type = 3) (tags : List MbTag) :
    modules (t :: tags) = t :: modules tags := List.filter_cons_of_pos (by simpa using ht)

theorem modules_cons_other (ht : t.type ≠ 3) (tags : List MbTag) :
    modules (t :: tags) = modules tags := List.filter_cons_of_neg (by simpa using ht)

theorem modules_tail (t : MbTag) (tags : List MbTag) : modules tags ⊆ modules (t :: tags) :=
  ((List.sublist_cons_self t tags).filter _).subset

theorem tagsSize_cons (t : MbTag) (tags : List MbTag) :
    tagsSize (t :: tags) = t.padded + tagsSize tags := by
  rw [tagsSize, List.map_cons, List.sum_cons]
  rfl

theorem MbTag.le_padded (t : MbTag) : t.size ≤ t.padded := by
  rw [padded]
  omega

theorem MbTag.padded_lt (t : MbTag) : t.padded < t.size + 8 := by
  rw [padded]
  omega

theorem MbTag.padded_dvd (t : MbTag) : 8 ∣ t.padded := Nat.dvd_mul_right ..

theorem MbTag.range_eq (t : MbTag) : Set.Ico t.start (t.start + t.bytes) = t.range := by
  ext x
  rw [range, bytes, Set.mem_Ico, Set.mem_Ico]
  omega

theorem MbTag.At.fields_subset {t : MbTag} (h : t.At mem p) :
    t.fields p ⊆ Set.Ico p (p + t.padded) := by
  have hpadded := t.le_padded
  have hheader := h.header
  rw [fields]
  refine Set.Ico_subset_Ico_right ?_
  by_cases ht : t.type = 3
  · have hmodule := h.module ht
    rw [if_pos ht]
    omega
  · rw [if_neg ht]
    omega

theorem TagsAt.fields_subset (h : TagsAt mem p tags) :
    tagFields p tags ⊆ Set.Ico p (p + tagsSize tags) := by
  induction tags generalizing p with
  | nil => exact Set.empty_subset _
  | cons t tags ih =>
    rw [tagsSize_cons]
    refine Set.union_subset (h.1.fields_subset.trans ?_) ((ih h.2).trans ?_)
    · exact Set.Ico_subset_Ico_right (by omega)
    · exact Set.Ico_subset_Ico (by omega) (by omega)

theorem MbTag.At.congr {t : MbTag} (h : t.At mem p) (he : Set.EqOn mem' mem (t.fields p)) :
    t.At mem' p := by
  have hword : ∀ i, i + 4 ≤ (if t.type = 3 then 16 else 8) →
      mem'.word (p + i) = mem.word (p + i) := fun i hi =>
    Mem.word_eqOn (he.mono (Set.Ico_subset_Ico (by omega) (by omega)))
  have hheader : (8 : Nat) ≤ if t.type = 3 then 16 else 8 := by split <;> decide
  refine ⟨?_, ?_, h.header, h.module, ?_, ?_, h.ordered⟩
  · exact (hword 0 (by omega)).trans h.type
  · exact (hword 4 (by omega)).trans h.size
  · intro ht
    exact (hword 8 (by rw [if_pos ht]; decide)).trans (h.start ht)
  · intro ht
    exact (hword 12 (by rw [if_pos ht])).trans (h.stop ht)

theorem TagsAt.congr (h : TagsAt mem p tags) (he : Set.EqOn mem' mem (tagFields p tags)) :
    TagsAt mem' p tags := by
  induction tags generalizing p with
  | nil => trivial
  | cons t tags ih =>
    exact ⟨h.1.congr (he.mono Set.subset_union_left), ih h.2 (he.mono Set.subset_union_right)⟩

namespace Arch

variable {a : Arch}

theorem IsX86.offset_dvd (ha : a.IsX86) : 8 ∣ a.offset := by
  rcases ha with ha | ha
  · rw [ha]
    exact ⟨0x1FFFFFFFF0000000, rfl⟩
  · rw [ha]
    exact ⟨0x18000000, rfl⟩

theorem IsX86.width_dvd (ha : a.IsX86) : 8 ∣ 2 ^ a.width := by
  rcases ha with ha | ha
  · rw [ha]
    exact ⟨2 ^ 61, rfl⟩
  · rw [ha]
    exact ⟨2 ^ 29, rfl⟩

theorem IsX86.offset_lt (ha : a.IsX86) : a.offset < 2 ^ a.width := by
  rcases ha with ha | ha
  · rw [ha]
    exact show 0xFFFFFFFF80000000 < 2 ^ 64 by decide
  · rw [ha]
    exact show 0xC0000000 < 2 ^ 32 by decide

end Arch

theorem alignCeiling_eight (hw : 8 ∣ 2 ^ w) (hq : 8 ∣ q) (hpos : 0 < n) (hle : n ≤ q)
    (hlt : q < n + 8) (hmax : q < 2 ^ w) : alignCeiling w n 8 = q := by
  rw [alignCeiling_exact (by omega) (by omega)]
  omega

theorem MbTag.align_next {a : Arch} (ha : a.IsX86) (t : MbTag) (hp : 8 ∣ p) (hsize : 8 ≤ t.size)
    (hmapped : p + t.padded + a.offset < 2 ^ a.width) :
    alignCeiling a.width (wrap a.width (p + a.offset + t.size)) 8 = p + t.padded + a.offset := by
  have hle := t.le_padded
  have hlt := t.padded_lt
  have ho := ha.offset_dvd
  have ht := t.padded_dvd
  rw [wrap_of_lt (by omega)]
  exact alignCeiling_eight ha.width_dvd (by omega) (by omega) (by omega) (by omega) (by omega)

section Relocations

variable {a : Arch}

/-- What `arch_kernel_alloc` returns for a module is physically the next page. -/
theorem relocation_eq (h : a.kernelEnd + a.usedAfter used t.bytes + a.offset < 2 ^ a.width) :
    relocation a used t = ⟨t.start, a.place used, t.bytes⟩ := by
  rw [relocation, Arch.kernelAlloc_eq h]
  dsimp only
  rw [Arch.phys, if_pos (Nat.le_add_left ..), Nat.add_sub_cancel]

theorem usedPast_module (ht : t.type = 3)
    (h : a.kernelEnd + a.usedAfter used t.bytes + a.offset < 2 ^ a.width) :
    usedPast a used t = a.usedAfter used t.bytes := by
  rw [usedPast, if_pos ht, Arch.kernelAlloc_eq h]

theorem usedPast_other (ht : t.type ≠ 3) : usedPast a used t = used := if_neg ht

theorem fits_module (ht : t.type = 3) (h : a.Fits used ((modules (t :: tags)).map MbTag.bytes)) :
    a.kernelEnd + a.usedAfter used t.bytes + a.offset < 2 ^ a.width := by
  rw [modules_cons_module ht] at h
  exact h.1

theorem fits_tail (h : a.Fits used ((modules (t :: tags)).map MbTag.bytes)) :
    a.Fits (usedPast a used t) ((modules tags).map MbTag.bytes) := by
  by_cases ht : t.type = 3
  · rw [usedPast_module ht (fits_module ht h)]
    rw [modules_cons_module ht] at h
    exact h.2
  · rw [modules_cons_other ht] at h
    rw [usedPast_other ht]
    exact h

theorem relocations_module (ht : t.type = 3) : relocations a used (t :: tags) =
    relocation a used t :: relocations a (usedPast a used t) tags := if_pos ht

theorem relocations_other (ht : t.type ≠ 3) :
    relocations a used (t :: tags) = relocations a used tags := by
  rw [relocations, if_neg ht, usedPast_other ht]

theorem relocations_source (a : Arch) (used : Nat) (tags : List MbTag) :
    (relocations a used tags).map Copy.source = (modules tags).map MbTag.range := by
  induction tags generalizing used with
  | nil => rfl
  | cons t tags ih =>
    by_cases ht : t.type = 3
    · rw [relocations_module ht, modules_cons_module ht, List.map_cons, List.map_cons, ih]
      exact congrArg (· :: _) t.range_eq
    · rw [relocations_other ht, modules_cons_other ht, ih]

theorem exists_module_of_relocation (h : c ∈ relocations a used tags) :
    ∃ t ∈ modules tags, t.range = c.source := by
  have hsource := List.mem_map_of_mem (f := Copy.source) h
  rw [relocations_source] at hsource
  exact List.mem_map.1 hsource

theorem relocations_above (h : a.Fits used ((modules tags).map MbTag.bytes)) :
    ∀ c ∈ relocations a used tags, a.kernelEnd + used ≤ c.dst := by
  induction tags generalizing used with
  | nil => exact fun _ hc => absurd hc List.not_mem_nil
  | cons t tags ih =>
    have hrest := ih (fits_tail h)
    by_cases ht : t.type = 3
    · have hfits := fits_module ht h
      have hplace := a.place_add_le used t.bytes
      have hused := a.le_place used
      rw [usedPast_module ht hfits] at hrest
      rw [relocations_module ht, relocation_eq hfits, usedPast_module ht hfits]
      intro c hc
      rcases List.mem_cons.1 hc with rfl | hc
      · exact hused
      · have hc := hrest c hc
        omega
    · rw [usedPast_other ht] at hrest
      rw [relocations_other ht]
      exact hrest

/-- The destinations are apart, since every one is below what is free afterwards. -/
theorem relocations_apart (h : a.Fits used ((modules tags).map MbTag.bytes)) :
    (relocations a used tags).Pairwise fun c d => Disjoint c.dest d.dest := by
  induction tags generalizing used with
  | nil => exact .nil
  | cons t tags ih =>
    have hrest := ih (fits_tail h)
    by_cases ht : t.type = 3
    · have hfits := fits_module ht h
      have hplace := a.place_add_le used t.bytes
      have habove := relocations_above (fits_tail h)
      rw [relocations_module ht]
      refine List.pairwise_cons.2 ⟨fun c hc => Set.disjoint_left.2 fun x hx hxc => ?_, hrest⟩
      have hc := habove c hc
      rw [relocation_eq hfits] at hx
      rw [usedPast_module ht hfits] at hc
      have hlt : x < a.place used + t.bytes := hx.2
      have hle := hxc.1
      omega
    · rw [usedPast_other ht] at hrest
      rw [relocations_other ht]
      exact hrest

end Relocations

/-- The loop of `multiboot_set_header` is at the tag at `p`, with all that is needed to process the
tags from there on. -/
structure Ready (a : Arch) (stop p : Nat) (tags : List MbTag) (s : Boot) : Prop where
  aligned : 8 ∣ p
  listed : TagsAt s.mem p tags
  ends : p + tagsSize tags = stop
  mapped : stop + a.offset < 2 ^ a.width
  low : ∀ t ∈ modules tags, t.stop ≤ a.offset
  fits : a.Fits s.kernelEndOffset ((modules tags).map MbTag.bytes)
  info : ∀ t ∈ modules tags, Disjoint t.range (tagFields p tags)
  clear : TagsClear a p s.kernelEndOffset tags

variable {a : Arch} {s s' : Boot}

theorem multibootParseModule_eq (hstart : a.load32 s.mem (tag + 8) = start)
    (hsize : wrapSub 32 (a.load32 s.mem (tag + 12)) start = n) :
    (∃ v w, (s.multibootParseModule a tag).mem = a.store32 (a.store32 (a.memCopy start
      (a.kernelAlloc s.kernelEndOffset n).1 n s.mem) (tag + 8) v) (tag + 12) w) ∧
    (s.multibootParseModule a tag).kernelEndOffset = (a.kernelAlloc s.kernelEndOffset n).2 := by
  subst hsize hstart
  rw [Boot.multibootParseModule]
  dsimp only
  split
  · exact ⟨⟨_, _, rfl⟩, rfl⟩
  · exact ⟨⟨_, _, rfl⟩, rfl⟩

theorem callParser_module (ht : type = 3) (tag : Nat) :
    s.callParser a tag (tagParser type) = s.multibootParseModule a tag := by
  rw [ht]
  rfl

theorem callParser_other (ht : type ≠ 3) (tag : Nat) :
    (s.callParser a tag (tagParser type)).mem = s.mem ∧
      (s.callParser a tag (tagParser type)).kernelEndOffset = s.kernelEndOffset := by
  unfold tagParser
  split
  · exact ⟨rfl, rfl⟩
  · exact ⟨rfl, rfl⟩
  · exact ⟨rfl, rfl⟩
  · exact absurd rfl ht
  · exact ⟨rfl, rfl⟩

namespace Ready

theorem stop_eq (h : Ready a stop p (t :: tags) s) : p + t.padded + tagsSize tags = stop := by
  have hends := h.ends
  rw [tagsSize_cons] at hends
  omega

theorem next (h : Ready a stop p (t :: tags) s)
    (hmem : Set.EqOn s'.mem s.mem (tagFields (p + t.padded) tags))
    (hk : s'.kernelEndOffset = usedPast a s.kernelEndOffset t) :
    Ready a stop (p + t.padded) tags s' := by
  refine ⟨(Nat.dvd_add_right h.aligned).2 t.padded_dvd, h.listed.2.congr hmem, h.stop_eq,
    h.mapped, fun u hu => h.low u (modules_tail t tags hu), ?_, fun u hu => ?_, ?_⟩
  · rw [hk]
    exact fits_tail h.fits
  · exact (h.info u (modules_tail t tags hu)).mono_right Set.subset_union_right
  · rw [hk]
    exact h.clear.2

theorem next_tag (ha : a.IsX86) (h : Ready a stop p (t :: tags) s) :
    alignCeiling a.width (wrap a.width (p + a.offset + t.size)) 8 = p + t.padded + a.offset := by
  have hstop := h.stop_eq
  have hmapped := h.mapped
  exact t.align_next ha h.aligned h.listed.1.header (by omega)

theorem parseTags_succ (ha : a.IsX86) (h : Ready a stop p (t :: tags) s) (hheader : header ≤ p)
    (hs : s.callParser a (p + a.offset) (tagParser t.type) = s')
    (hsize : s'.mem.word (p + 4) = t.size) :
    s.parseTags a (header + a.offset) (stop - header) (left + 1) (p + a.offset) =
      s'.parseTags a (header + a.offset) (stop - header) left (p + t.padded + a.offset) := by
  have hstop := h.stop_eq
  have hmapped := h.mapped
  have hpadded := t.le_padded
  have hleast := h.listed.1.header
  have htype : a.load32 s.mem (p + a.offset) = t.type :=
    (Arch.load32_high (i := 0) (by omega)).trans h.listed.1.type
  have hcond : wrapSub a.width (p + a.offset) (header + a.offset) < stop - header := by
    rw [wrapSub_of_le (by omega) (by omega)]
    omega
  rw [Boot.parseTags, if_pos hcond, htype, hs]
  dsimp only
  rw [Arch.load32_high (by omega), hsize, h.next_tag ha]

theorem parseTags_nil (h : Ready a stop p [] s) (hheader : header ≤ p) :
    s.parseTags a (header + a.offset) (stop - header) left (p + a.offset) = s := by
  cases left with
  | zero => rfl
  | succ left =>
    have hends : p = stop := h.ends
    have hmapped := h.mapped
    rw [Boot.parseTags, wrapSub_of_le (by omega) (by omega), if_neg (by omega)]

/-- A module tag: the module is copied, and two fields of the tag are rewritten. -/
theorem parse_module (ha : a.IsX86) (h : Ready a stop p (t :: tags) s) (ht : t.type = 3) :
    Set.EqOn (s.multibootParseModule a (p + a.offset)).mem
      ((relocation a s.kernelEndOffset t).run s.mem) (Set.Ico (p + 8) (p + 16))ᶜ ∧
    (s.multibootParseModule a (p + a.offset)).kernelEndOffset =
      usedPast a s.kernelEndOffset t := by
  have hat := h.listed.1
  have hpadded := t.le_padded
  have hmodule := hat.module ht
  have hstop := h.stop_eq
  have hmapped := h.mapped
  have hordered := hat.ordered ht
  have hfits := fits_module ht h.fits
  have hlow := h.low
  rw [modules_cons_module ht] at hlow
  have hlow := hlow t List.mem_cons_self
  have hplace := a.place_add_le s.kernelEndOffset t.bytes
  have hstart : a.load32 s.mem (p + a.offset + 8) = t.start := by
    rw [Arch.load32_high (by omega), hat.start ht]
  have hsize : wrapSub 32 (a.load32 s.mem (p + a.offset + 12)) t.start = t.bytes := by
    have hlt := s.mem.word_lt (p + 12)
    rw [hat.stop ht] at hlt
    rw [Arch.load32_high (by omega), hat.stop ht, wrapSub_of_le hordered hlt, MbTag.bytes]
  obtain ⟨⟨v, w, hmem⟩, hk⟩ := multibootParseModule_eq hstart hsize
  rw [Arch.kernelAlloc_eq hfits] at hmem hk
  rw [Arch.memCopy_eq ha.offset_lt (by rw [MbTag.bytes]; omega) (by omega)] at hmem
  rw [relocation_eq hfits, usedPast_module ht hfits]
  refine ⟨fun x hx => ?_, hk⟩
  have hfirst : x ∉ Set.Ico (p + 8) (p + 8 + 4) :=
    fun hw => hx (Set.Ico_subset_Ico_right (by omega) hw)
  have hsecond : x ∉ Set.Ico (p + 12) (p + 12 + 4) :=
    fun hw => hx (Set.Ico_subset_Ico_left (by omega) hw)
  rw [hmem, Arch.store32_eqOn (by omega) w hsecond, Arch.store32_eqOn (by omega) v hfirst]
  rfl

/-- The fields of the later tags come after the two that are rewritten. -/
theorem later_fields (h : Ready a stop p (t :: tags) s) (ht : t.type = 3) :
    tagFields (p + t.padded) tags ⊆ (Set.Ico (p + 8) (p + 16))ᶜ := by
  have hpadded := t.le_padded
  have hmodule := h.listed.1.module ht
  intro x hx hf
  have hle := (h.listed.2.fields_subset hx).1
  have hlt := hf.2
  omega

/-- What the loop still needs survives a module tag. -/
theorem module_frame (ha : a.IsX86) (h : Ready a stop p (t :: tags) s) (ht : t.type = 3) :
    Set.EqOn (s.multibootParseModule a (p + a.offset)).mem s.mem
      (Set.Ico (p + 4) (p + 8) ∪ tagFields (p + t.padded) tags) := by
  have hfield : Set.Ico (p + 4) (p + 8) ⊆ (Set.Ico (p + 8) (p + 16))ᶜ :=
    fun x hx hf => absurd hf.1 (Nat.not_le.2 hx.2)
  intro x hx
  rw [(h.parse_module ha ht).1 (Set.union_subset hfield (h.later_fields ht) hx)]
  refine Copy.run_of_notMem fun hd => Set.disjoint_left.1 (h.clear.1 ht) hd ?_
  exact hx.imp_left fun hx => Set.Ico_subset_Ico_right (by omega) hx

theorem module_next (ha : a.IsX86) (h : Ready a stop p (t :: tags) s) (ht : t.type = 3) :
    Ready a stop (p + t.padded) tags (s.multibootParseModule a (p + a.offset)) :=
  h.next ((h.module_frame ha ht).mono Set.subset_union_right) (h.parse_module ha ht).2

theorem module_size (ha : a.IsX86) (h : Ready a stop p (t :: tags) s) (ht : t.type = 3) :
    (s.multibootParseModule a (p + a.offset)).mem.word (p + 4) = t.size :=
  (Mem.word_eqOn ((h.module_frame ha ht).mono Set.subset_union_left)).trans h.listed.1.size

theorem fields_subset (ht : t.type = 3) :
    Set.Ico (p + 8) (p + 16) ⊆ tagFields p (t :: tags) := by
  refine Set.Subset.trans ?_ Set.subset_union_left
  rw [MbTag.fields, if_pos ht]
  exact Set.Ico_subset_Ico_left (Nat.le_add_right ..)

theorem source_subset (h : Ready a stop p (t :: tags) s) (ht : t.type = 3) :
    ∀ c ∈ relocations a (usedPast a s.kernelEndOffset t) tags,
      c.source ⊆ (Set.Ico (p + 8) (p + 16))ᶜ := by
  intro c hc x hx hf
  obtain ⟨u, hu, huc⟩ := exists_module_of_relocation hc
  exact Set.disjoint_left.1 (h.info u (modules_tail t tags hu)) (huc ▸ hx) (fields_subset ht hf)

/-- What the copies after a module tag leave behind is what all copies together leave behind, but
for the two fields. -/
theorem eqOn_module (ha : a.IsX86) (h : Ready a stop p (t :: tags) s) (ht : t.type = 3)
    (hrun : Set.EqOn mem (Copy.runAll (relocations a (usedPast a s.kernelEndOffset t) tags)
        (s.multibootParseModule a (p + a.offset)).mem)
      ((tagFields (p + t.padded) tags)ᶜ ∪
        Copy.dests (relocations a (usedPast a s.kernelEndOffset t) tags))) :
    Set.EqOn mem (Copy.runAll (relocations a s.kernelEndOffset (t :: tags)) s.mem)
      ((tagFields p (t :: tags))ᶜ ∪ Copy.dests (relocations a s.kernelEndOffset (t :: tags))) := by
  have hsim := Copy.runAll_eqOn (h.parse_module ha ht).1 (h.source_subset ht)
  rw [relocations_module ht, Copy.dests_cons, Copy.runAll]
  -- A byte that later tags do not write, and this one does not rewrite.
  have hout : ∀ x ∉ tagFields (p + t.padded) tags, x ∉ Set.Ico (p + 8) (p + 16) → _ = _ :=
    fun x hlater hown => (hrun (.inl hlater)).trans (hsim (.inl hown))
  rintro x (hx | hx | hx)
  · exact hout x (fun hl => hx (.inr hl)) fun ho => hx (fields_subset ht ho)
  · have hclear := Set.disjoint_left.1 (h.clear.1 ht) hx
    exact hout x (fun hl => hclear (.inr hl)) fun ho =>
      hclear (.inl (Set.Ico_subset_Ico_left (by omega) ho))
  · exact (hrun (.inr hx)).trans (hsim (.inr hx))

/-- The loop leaves the memory behind that the copies alone leave behind, but for the tags. -/
theorem parseTags_eqOn (ha : a.IsX86) (h : Ready a stop p tags s) (hheader : header ≤ p)
    (hleft : tags.length ≤ left) :
    Set.EqOn (s.parseTags a (header + a.offset) (stop - header) left (p + a.offset)).mem
      (Copy.runAll (relocations a s.kernelEndOffset tags) s.mem)
      ((tagFields p tags)ᶜ ∪ Copy.dests (relocations a s.kernelEndOffset tags)) := by
  induction tags generalizing p s left with
  | nil =>
    rw [h.parseTags_nil hheader]
    exact Set.eqOn_refl ..
  | cons t tags ih =>
    cases left with
    | zero => exact absurd hleft (Nat.not_succ_le_zero _)
    | succ left =>
    have hnext := Nat.le_trans hheader (Nat.le_add_right p t.padded)
    replace hleft := Nat.le_of_succ_le_succ hleft
    by_cases ht : t.type = 3
    · have hrun := ih (h.module_next ha ht) hnext hleft
      rw [(h.parse_module ha ht).2] at hrun
      rw [h.parseTags_succ ha hheader (callParser_module ht _) (h.module_size ha ht)]
      exact h.eqOn_module ha ht hrun
    · obtain ⟨hmem, hk⟩ := callParser_other ht (p + a.offset) (a := a) (s := s)
      have hsize : (s.callParser a (p + a.offset) (tagParser t.type)).mem.word (p + 4) =
          t.size := by
        rw [hmem, h.listed.1.size]
      have hrun := ih (h.next (fun x _ => congrFun hmem x) (hk.trans (usedPast_other ht).symm))
        hnext hleft
      rw [hk, hmem] at hrun
      rw [h.parseTags_succ ha hheader rfl hsize, relocations_other ht]
      exact hrun.mono (Set.union_subset_union_left _ (Set.compl_subset_compl.2
        Set.subset_union_right))

end Ready

theorem header_eq (ha : a.IsX86) (haligned : 8 ∣ header)
    (htotal : mem.word header = 8 + tagsSize tags)
    (hmapped : infoEnd header tags + a.offset < 2 ^ a.width) :
    wrap a.width (header + a.offset) = header + a.offset ∧
    a.load32 mem (header + a.offset) = infoEnd header tags - header ∧
    alignCeiling a.width (wrap a.width (header + a.offset + 8)) 8 = header + 8 + a.offset := by
  have ho := ha.offset_dvd
  have hend : infoEnd header tags = header + 8 + tagsSize tags := rfl
  have hload : a.load32 mem (header + a.offset) = mem.word header :=
    Arch.load32_high (i := 0) (by omega)
  refine ⟨wrap_of_lt (by omega), by omega, ?_⟩
  rw [wrap_of_lt (by omega)]
  exact alignCeiling_eight ha.width_dvd (by omega) (by omega) (by omega) (by omega) (by omega)

/-- The loop starts at the first tag, with the size of the information structure. -/
theorem multibootSetHeader_eq (ha : a.IsX86) (haligned : 8 ∣ header)
    (htotal : s.mem.word header = 8 + tagsSize tags)
    (hmapped : infoEnd header tags + a.offset < 2 ^ a.width) :
    s.multibootSetHeader a MULTIBOOT_EAX_MAGIC header =
      s.parseTags a (header + a.offset) (infoEnd header tags - header) MAX_TAGS
        (header + 8 + a.offset) := by
  obtain ⟨hstart, htotal, hfirst⟩ := header_eq ha haligned htotal hmapped
  rw [Boot.multibootSetHeader, if_neg (not_not.2 rfl)]
  dsimp only
  rw [hstart, htotal, hfirst]

namespace Loaded

theorem congr (h : Loaded a kernelStart header tags s)
    (hmem : Set.EqOn s'.mem s.mem (Set.Ico header (infoEnd header tags)))
    (hk : s'.kernelEndOffset = s.kernelEndOffset) : Loaded a kernelStart header tags s' := by
  refine { h with total := ?_, listed := ?_, fits := ?_ }
  · refine (Mem.word_eqOn (hmem.mono (Set.Ico_subset_Ico_right ?_))).trans h.total
    rw [infoEnd]
    omega
  · exact h.listed.congr (hmem.mono (h.listed.fields_subset.trans
      (Set.Ico_subset_Ico_left (Nat.le_add_right ..))))
  · rw [hk]
    exact h.fits

theorem ready (h : Loaded a kernelStart header tags s)
    (hclear : TagsClear a (header + 8) s.kernelEndOffset tags) :
    Ready a (infoEnd header tags) (header + 8) tags s := by
  refine ⟨?_, h.listed, rfl, h.mapped, h.low, h.fits, fun t ht => ?_, hclear⟩
  · exact (Nat.dvd_add_right h.aligned).2 (Nat.dvd_refl 8)
  · exact (h.info t ht).mono_right (h.listed.fields_subset.trans
      (Set.Ico_subset_Ico_left (Nat.le_add_right ..)))

theorem sources_apart (h : Loaded a kernelStart header tags s) :
    (relocations a used tags).Pairwise fun c d => Disjoint c.source d.source := by
  have hapart : ((modules tags).map MbTag.range).Pairwise Disjoint := List.pairwise_map.2 h.apart
  rw [← relocations_source a used] at hapart
  exact List.pairwise_map.1 hapart

theorem sources_info (h : Loaded a kernelStart header tags s) :
    ∀ c ∈ relocations a used tags,
      Disjoint c.source (Set.Ico header (infoEnd header tags)) := by
  intro c hc
  obtain ⟨t, ht, he⟩ := exists_module_of_relocation hc
  exact he ▸ h.info t ht

end Loaded

/-- Where the tags stay readable, the modules are kept if and only if no module is loaded below its
destination and runs into it, and no destination lies over a module that is relocated later. -/
theorem keepsModules_iff (ha : a.IsX86) (h : Loaded a kernelStart header tags s)
    (hclear : TagsClear a (header + 8) s.kernelEndOffset tags) :
    KeepsModules a header tags s ↔ Copy.Safe (relocations a s.kernelEndOffset tags) := by
  have hbytes : Nontrivial Byte := ⟨0#8, 1#8, by decide⟩
  rw [← Copy.safe_iff (relocations_apart h.fits) h.sources_apart h.sources_info s.mem]
  refine forall_congr' fun mem => forall_congr' fun hmem => ?_
  have hload : Loaded a kernelStart header tags { s with mem := mem } := h.congr hmem rfl
  have hrun := (hload.ready hclear).parseTags_eqOn ha (Nat.le_add_right ..) hload.few
  have hdest : ∀ c ∈ relocations a s.kernelEndOffset tags, Set.EqOn _ _ c.dest :=
    fun c hc => hrun.mono fun x hx => .inr ⟨c, hc, hx⟩
  rw [multibootSetHeader_eq ha hload.aligned hload.total hload.mapped]
  constructor
  · exact fun hdone c hc => (hdone c hc).congr (hdest c hc).symm
  · exact fun hdone c hc => (hdone c hc).congr (hdest c hc)

/-- Two modules of one byte each, the first one at 3 MiB. -/
def twoTags (second : Nat) : List MbTag :=
  [⟨3, 17, 0x300000, 0x300001⟩, ⟨3, 17, second, second + 1⟩, ⟨0, 8, 0, 0⟩]

def twoModules (second : Nat) : Boot :=
  let word := fun n => [n, n / 2 ^ 8, n / 2 ^ 16, n / 2 ^ 24]
  let info := [64, 0, 3, 17, 0x300000, 0x300001, 0, 0, 3, 17, second, second + 1, 0, 0, 0, 8]
  let bytes := info.flatMap word
  let mem : Mem := fun x => if x < 0x9000 then 0 else BitVec.ofNat 8 (bytes.getD (x - 0x9000) 0)
  ⟨(mem.store 0x300000 1).store second 2, 0, ⟨0, 0, 0, 0⟩, List.replicate INITRD_MAX ⟨0, 0, 0⟩⟩

theorem loaded_high : Loaded (.amd64 0x101000) 0x100000 0x9000 (twoTags 0x200000)
    (twoModules 0x200000) := by
  constructor <;> decide

theorem keepsModules_high : KeepsModules (.amd64 0x101000) 0x9000 (twoTags 0x200000)
    (twoModules 0x200000) :=
  (keepsModules_iff (.inl rfl) loaded_high (by decide)).2 (by decide)

/-- The second module directly above the kernel is overwritten by the first one. -/
theorem not_keepsModules_low :
    Loaded (.amd64 0x101000) 0x100000 0x9000 (twoTags 0x101000) (twoModules 0x101000) ∧
    (twoModules 0x101000).mem 0x101000 = 2#8 ∧
    ((twoModules 0x101000).multibootSetHeader (.amd64 0x101000) MULTIBOOT_EAX_MAGIC 0x9000).mem
      0x103000 = 1#8 ∧
    ¬ KeepsModules (.amd64 0x101000) 0x9000 (twoTags 0x101000) (twoModules 0x101000) := by
  have hlost : ¬ Preserved (relocations (.amd64 0x101000) 0 (twoTags 0x101000))
      (twoModules 0x101000).mem ((twoModules 0x101000).multibootSetHeader (.amd64 0x101000)
        MULTIBOOT_EAX_MAGIC 0x9000).mem := by
    decide +kernel
  refine ⟨?_, by decide, by decide +kernel, fun h => hlost (h _ (Set.eqOn_refl ..))⟩
  constructor <;> decide

end Tupai
