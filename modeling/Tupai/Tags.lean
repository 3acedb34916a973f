import Tupai.Relocation

namespace Tupai
open Lib
set_option autoImplicit true

namespace Arch

def span (a : Arch) (addr n : Nat) : List Nat :=
  (List.range n).map fun i => wrap a.width (addr + i)

/-- The addresses of a string and its NUL, as far as `fuel` goes. -/
def stringSpan (a : Arch) (mem : Mem) : (fuel addr : Nat) → List Nat
  | 0, _ => []
  | fuel + 1, addr =>
    wrap a.width addr :: if a.load8 mem addr = 0#8 then [] else a.stringSpan mem fuel (addr + 1)

/-- What `str_equal` reads of its first string: it stops at the first difference. -/
def strEqualSpan (a : Arch) (mem : Mem) : (addr : Nat) → (str1 : Chars) → List Nat
  | addr, [] => [wrap a.width addr]
  | addr, c :: str1 =>
    wrap a.width addr :: if a.load8 mem addr = c then a.strEqualSpan mem (addr + 1) str1 else []

end Arch

namespace Boot

/-- The addresses that a parser reads, with those that it only reads for the debug output. -/
def parserReads (a : Arch) (s : Boot) (tag : Nat) : (parser : Option TagParser) → List Nat
  | some .meminfo => a.span tag 16
  | some .biosdev => a.span (tag + 8) 12
  | some .bootcmd => a.stringSpan s.mem (2 ^ a.width) (tag + 8)
  | some .module =>
    let start := a.load32 s.mem (tag + 8)
    let modSize := wrapSub 32 (a.load32 s.mem (tag + 12)) start
    a.span (tag + 8) 8 ++ a.stringSpan s.mem (2 ^ a.width) (tag + 16) ++ a.span start modSize ++
      a.strEqualSpan (s.multibootParseModule a tag).mem (tag + 16) INITRD
  | none => []

/-- The tags that the loop of `multiboot_set_header` looks at, each with the state at this time. -/
def tagRounds (a : Arch) (start totalSize : Nat) :
    (left : Nat) → (s : Boot) → (ctag : Nat) → List (Boot × Nat)
  | 0, _, _ => []
  | left + 1, s, ctag =>
    if wrapSub a.width ctag start < totalSize then
      let s' := s.callParser a ctag (tagParser (a.load32 s.mem ctag))
      let next := wrap a.width (ctag + a.load32 s'.mem (ctag + 4))
      (s, ctag) :: tagRounds a start totalSize left s' (alignCeiling a.width next 8)
    else []

def headerRounds (a : Arch) (magic header : Nat) (s : Boot) : List (Boot × Nat) :=
  if magic ≠ MULTIBOOT_EAX_MAGIC then []
  else
    let start := wrap a.width (header + a.offset)
    let totalSize := a.load32 s.mem start
    tagRounds a start totalSize MAX_TAGS s (alignCeiling a.width (wrap a.width (start + 8)) 8)

/-- The parser that a round calls, and the address that it gets. -/
def roundCall (a : Arch) (round : Boot × Nat) : Option (TagParser × Nat) :=
  (tagParser (a.load32 round.1.mem round.2)).map (·, round.2)

/-- A round reads the type of its tag, what its parser reads, and the size. -/
def roundReads (a : Arch) (round : Boot × Nat) : List Nat :=
  a.span round.2 8 ++ round.1.parserReads a round.2 (tagParser (a.load32 round.1.mem round.2))

def parserCalls (a : Arch) (magic header : Nat) (s : Boot) : List (TagParser × Nat) :=
  (s.headerRounds a magic header).filterMap (roundCall a)

def headerReads (a : Arch) (magic header : Nat) (s : Boot) : List Nat :=
  if magic ≠ MULTIBOOT_EAX_MAGIC then []
  else a.span (header + a.offset) 4 ++ (s.headerRounds a magic header).flatMap (roundReads a)

end Boot

namespace MbTag

def modSize (t : MbTag) : Nat := wrapSub 32 t.stop t.start

/-- There is a NUL in the tag, not before its `off`-th byte. -/
def Ends (t : MbTag) (mem : Mem) (p off : Nat) : Prop := ∃ i < t.size - off, mem (p + off + i) = 0#8

instance (t : MbTag) (mem : Mem) (p off : Nat) : Decidable (t.Ends mem p off) :=
  inferInstanceAs (Decidable (∃ i < t.size - off, mem (p + off + i) = 0#8))

/-- The tag is at a physical address, with all that decides about the modules. -/
structure Usable (t : MbTag) (mem : Mem) (p : Nat) : Prop where
  type : mem.word p = t.type
  size : mem.word (p + 4) = t.size
  header : 8 ≤ t.size
  start : t.type = 3 → mem.word (p + 8) = t.start
  stop : t.type = 3 → mem.word (p + 12) = t.stop
  args : t.type = 3 → t.Ends mem p 16

/-- The tag is as large as the structure that its parser expects. -/
structure Formed (t : MbTag) (mem : Mem) (p : Nat) : Prop extends t.Usable mem p where
  meminfo : t.type = 4 → 16 ≤ t.size
  biosdev : t.type = 5 → 20 ≤ t.size
  bootcmd : t.type = 1 → t.Ends mem p 8

/-- The two fields that `multiboot_parse_module` writes. -/
def rewritten (t : MbTag) (p : Nat) : Set Nat := {x | t.type = 3 ∧ x ∈ Set.Ico (p + 8) (p + 16)}

/-- What decides about the modules: all of a module tag, and the type and the size of another. -/
def needed (t : MbTag) (p : Nat) : Set Nat := Set.Ico p (p + if t.type = 3 then t.size else 8)

/-- What is needed of a tag after its module was copied: the size, and the arguments. -/
def neededAfter (t : MbTag) (p : Nat) : Set Nat :=
  Set.Ico (p + 4) (p + 8) ∪ Set.Ico (p + 16) (p + t.size)

end MbTag

def TagsUsable (mem : Mem) : (p : Nat) → (tags : List MbTag) → Prop
  | _, [] => True
  | p, t :: tags => t.Usable mem p ∧ TagsUsable mem (p + t.padded) tags

def tagsNeeded : (p : Nat) → (tags : List MbTag) → Set Nat
  | _, [] => ∅
  | p, t :: tags => t.needed p ∪ tagsNeeded (p + t.padded) tags

def TagsFormed (mem : Mem) : (p : Nat) → (tags : List MbTag) → Prop
  | _, [] => True
  | p, t :: tags => t.Formed mem p ∧ TagsFormed mem (p + t.padded) tags

/-- What `kernel_end_offset` is when a tag was processed. -/
def usedBy (a : Arch) (used : Nat) (t : MbTag) : Nat :=
  if t.type = 3 then (a.kernelAlloc used t.modSize).2 else used

/-- The copy of a module does not touch a part of the memory. -/
def Avoids (a : Arch) (used : Nat) (t : MbTag) (part : Set Nat) : Prop :=
  t.type = 3 → ∀ i < t.modSize,
    a.phys (wrap a.width ((a.kernelAlloc used t.modSize).1 + i)) ∉ part

/-- No module is copied over the block. -/
def Spares (a : Arch) (block : Set Nat) : (used : Nat) → (tags : List MbTag) → Prop
  | _, [] => True
  | used, t :: tags => Avoids a used t block ∧ Spares a block (usedBy a used t) tags

/-- No module is copied over what is needed after the copy. -/
def SparesNeeded (a : Arch) : (p used : Nat) → (tags : List MbTag) → Prop
  | _, _, [] => True
  | p, used, t :: tags =>
    Avoids a used t (t.neededAfter p ∪ tagsNeeded (p + t.padded) tags) ∧
    SparesNeeded a (p + t.padded) (usedBy a used t) tags

/-- A well-formed information block at `header`. -/
structure Info (a : Arch) (header : Nat) (tags : List MbTag) (s : Boot) : Prop where
  aligned : 8 ∣ header
  total : s.mem.word header = 8 + tagsSize tags
  formed : TagsFormed s.mem (header + 8) tags
  few : tags.length ≤ MAX_TAGS
  ended : ∃ t, tags.getLast? = some t ∧ t.type = 0 ∧ t.size = 8
  mapped : infoEnd header tags + a.offset < 2 ^ a.width

/-- A well-formed information block, over which no module is copied. -/
structure Block (a : Arch) (header : Nat) (tags : List MbTag) (s : Boot) : Prop
    extends Info a header tags s where
  spared : Spares a (Set.Ico header (infoEnd header tags)) s.kernelEndOffset tags

def tagCalls (a : Arch) : (p : Nat) → (tags : List MbTag) → List (TagParser × Nat)
  | _, [] => []
  | p, t :: tags =>
    ((tagParser t.type).map (·, p + a.offset)).toList ++ tagCalls a (p + t.padded) tags

/-- The virtual address of a byte of the block. -/
def Inside (a : Arch) (header stop x : Nat) : Prop :=
  header + a.offset ≤ x ∧ x < stop + a.offset

/-- An address in the information block, or of a byte of a module. -/
def MayRead (a : Arch) (header stop : Nat) (tags : List MbTag) (x : Nat) : Prop :=
  Inside a header stop x ∨ ∃ t ∈ modules tags, x ∈ a.span t.start t.modSize

variable {a : Arch} {mem mem' : Mem} {s s' : Boot} {t : MbTag}

theorem MbTag.Ends.congr (h : t.Ends mem p off)
    (he : Set.EqOn mem' mem (Set.Ico (p + off) (p + t.size))) : t.Ends mem' p off := by
  obtain ⟨i, hi, hzero⟩ := h
  exact ⟨i, hi, (he ⟨by omega, by omega⟩).trans hzero⟩

theorem MbTag.needed_of_module (ht : t.type = 3) (p : Nat) :
    t.needed p = Set.Ico p (p + t.size) := by
  rw [needed, if_pos ht]

namespace MbTag.Usable

theorem module_size (h : t.Usable mem p) (ht : t.type = 3) : 16 < t.size := by
  obtain ⟨i, hi, -⟩ := h.args ht
  omega

theorem needed_subset (h : t.Usable mem p) : t.needed p ⊆ Set.Ico p (p + t.padded) := by
  have hpadded := t.le_padded
  have hheader := h.header
  rw [needed]
  refine Set.Ico_subset_Ico_right ?_
  split_ifs <;> omega

theorem congr (h : t.Usable mem p) (he : Set.EqOn mem' mem (t.needed p)) : t.Usable mem' p := by
  have hheader : Set.Ico p (p + 8) ⊆ t.needed p := by
    have hsize := h.header
    rw [needed]
    refine Set.Ico_subset_Ico_right ?_
    split_ifs <;> omega
  have hword : ∀ i, i + 4 ≤ 8 → mem'.word (p + i) = mem.word (p + i) := fun i hi =>
    Mem.word_eqOn (he.mono ((Set.Ico_subset_Ico (by omega) (by omega)).trans hheader))
  refine ⟨(hword 0 (by decide)).trans h.type, (hword 4 (by decide)).trans h.size, h.header,
    fun ht => ?_, fun ht => ?_, fun ht => ?_⟩
  all_goals
    have hsize := h.module_size ht
    rw [needed_of_module ht] at he
  · refine (Mem.word_eqOn (he.mono ?_)).trans (h.start ht)
    exact Set.Ico_subset_Ico (by omega) (by omega)
  · refine (Mem.word_eqOn (he.mono ?_)).trans (h.stop ht)
    exact Set.Ico_subset_Ico (by omega) (by omega)
  · exact (h.args ht).congr (he.mono (Set.Ico_subset_Ico_left (by omega)))

end MbTag.Usable

theorem MbTag.Formed.congr (h : t.Formed mem p)
    (he : Set.EqOn mem' mem (Set.Ico p (p + t.size))) : t.Formed mem' p := by
  have hheader := h.header
  refine ⟨h.toUsable.congr (he.mono ?_), h.meminfo, h.biosdev, fun ht => ?_⟩
  · rw [needed]
    refine Set.Ico_subset_Ico_right ?_
    split_ifs <;> omega
  · exact (h.bootcmd ht).congr (he.mono (Set.Ico_subset_Ico_left (by omega)))

theorem TagsFormed.congr (h : TagsFormed mem p tags)
    (he : Set.EqOn mem' mem (Set.Ico p (p + tagsSize tags))) : TagsFormed mem' p tags := by
  induction tags generalizing p with
  | nil => trivial
  | cons t tags ih =>
    have hpadded := t.le_padded
    rw [tagsSize_cons] at he
    refine ⟨h.1.congr (he.mono (Set.Ico_subset_Ico_right (by omega))), ih h.2 (he.mono ?_)⟩
    exact Set.Ico_subset_Ico (by omega) (by omega)

theorem TagsFormed.usable (h : TagsFormed mem p tags) : TagsUsable mem p tags := by
  induction tags generalizing p with
  | nil => trivial
  | cons t tags ih => exact ⟨h.1.toUsable, ih h.2⟩

theorem TagsUsable.congr (h : TagsUsable mem p tags)
    (he : Set.EqOn mem' mem (tagsNeeded p tags)) : TagsUsable mem' p tags := by
  induction tags generalizing p with
  | nil => trivial
  | cons t tags ih =>
    exact ⟨h.1.congr (he.mono Set.subset_union_left), ih h.2 (he.mono Set.subset_union_right)⟩

theorem TagsUsable.needed_subset (h : TagsUsable mem p tags) :
    tagsNeeded p tags ⊆ Set.Ico p (p + tagsSize tags) := by
  induction tags generalizing p with
  | nil => exact Set.empty_subset _
  | cons t tags ih =>
    rw [tagsSize_cons]
    refine Set.union_subset (h.1.needed_subset.trans ?_) ((ih h.2).trans ?_)
    · exact Set.Ico_subset_Ico_right (by omega)
    · exact Set.Ico_subset_Ico (by omega) (by omega)

theorem Avoids.mono {part part' : Set Nat} (h : Avoids a used t part) (hpart : part' ⊆ part) :
    Avoids a used t part' := fun ht i hi hmem => h ht i hi (hpart hmem)

/-- Where no module is copied over the block, what is needed of it is spared. -/
theorem Spares.needed {block : Set Nat} (h : Spares a block used tags)
    (hformed : TagsUsable mem p tags) (hblock : Set.Ico p (p + tagsSize tags) ⊆ block) :
    SparesNeeded a p used tags := by
  induction tags generalizing p used with
  | nil => trivial
  | cons t tags ih =>
    have hpadded := t.le_padded
    have hheader := hformed.1.header
    rw [tagsSize_cons] at hblock
    have hrest : Set.Ico (p + t.padded) (p + t.padded + tagsSize tags) ⊆ block :=
      (Set.Ico_subset_Ico (by omega) (by omega)).trans hblock
    have hown : t.neededAfter p ⊆ block := by
      refine (Set.union_subset ?_ ?_).trans hblock
      · exact Set.Ico_subset_Ico (by omega) (by omega)
      · exact Set.Ico_subset_Ico (by omega) (by omega)
    exact ⟨h.1.mono (Set.union_subset hown (hformed.2.needed_subset.trans hrest)),
      ih h.2 hformed.2 hrest⟩

/-- The loop is at the tag at `p`, and what it needs from there on is intact. -/
structure Parsing (a : Arch) (header stop p : Nat) (tags : List MbTag) (s : Boot) : Prop where
  aligned : 8 ∣ p
  usable : TagsUsable s.mem p tags
  below : header ≤ p
  ends : p + tagsSize tags = stop
  mapped : stop + a.offset < 2 ^ a.width
  spared : SparesNeeded a p s.kernelEndOffset tags

/-- The loop is at the tag at `p`, and the block is intact from there to its end. -/
structure Walk (a : Arch) (header stop p : Nat) (tags : List MbTag) (s : Boot) : Prop
    extends Parsing a header stop p tags s where
  formed : TagsFormed s.mem p tags
  block : Spares a (Set.Ico header stop) s.kernelEndOffset tags

theorem Inside.of_le (hlo : header ≤ q) (hhi : q < stop) (hmapped : stop + a.offset < 2 ^ a.width) :
    Inside a header stop (wrap a.width (q + a.offset)) := by
  rw [wrap_of_lt (by omega)]
  exact ⟨by omega, by omega⟩

theorem Inside.span (hlo : header ≤ q) (hhi : q + n ≤ stop)
    (hmapped : stop + a.offset < 2 ^ a.width) :
    ∀ x ∈ a.span (q + a.offset) n, Inside a header stop x := by
  intro x hx
  obtain ⟨i, hi, rfl⟩ := List.mem_map.1 hx
  have hlt := List.mem_range.1 hi
  rw [Nat.add_right_comm]
  exact .of_le (by omega) (by omega) hmapped

theorem Inside.stringSpan (hlo : header ≤ q) (hhi : q + k < stop)
    (hmapped : stop + a.offset < 2 ^ a.width) (hzero : mem (q + k) = 0#8) (fuel : Nat) :
    ∀ x ∈ a.stringSpan mem fuel (q + a.offset), Inside a header stop x := by
  induction fuel generalizing q k with
  | zero => exact fun x hx => absurd hx List.not_mem_nil
  | succ fuel ih =>
    rw [Arch.stringSpan, Arch.load8_high (by omega), List.forall_mem_cons]
    refine ⟨.of_le hlo (by omega) hmapped, ?_⟩
    split_ifs with hc
    · exact fun x hx => absurd hx List.not_mem_nil
    · cases k with
      | zero => exact absurd hzero hc
      | succ k =>
        rw [Nat.add_right_comm]
        exact ih (q := q + 1) (k := k) (by omega) (by omega)
          (by rwa [Nat.add_assoc, Nat.add_comm 1])

theorem Inside.strEqualSpan (hlo : header ≤ q) (hhi : q + k < stop)
    (hmapped : stop + a.offset < 2 ^ a.width) (hzero : mem (q + k) = 0#8)
    (hstr : ∀ c ∈ str1, c ≠ 0#8) :
    ∀ x ∈ a.strEqualSpan mem (q + a.offset) str1, Inside a header stop x := by
  induction str1 generalizing q k with
  | nil =>
    rw [Arch.strEqualSpan, List.forall_mem_singleton]
    exact .of_le hlo (by omega) hmapped
  | cons c str1 ih =>
    obtain ⟨hc, hrest⟩ := List.forall_mem_cons.1 hstr
    rw [Arch.strEqualSpan, Arch.load8_high (by omega), List.forall_mem_cons]
    refine ⟨.of_le hlo (by omega) hmapped, ?_⟩
    split_ifs with he
    · cases k with
      | zero => exact absurd (he.symm.trans hzero) hc
      | succ k =>
        rw [Nat.add_right_comm]
        exact ih (q := q + 1) (k := k) (by omega) (by omega)
          (by rwa [Nat.add_assoc, Nat.add_comm 1]) hrest
    · exact fun x hx => absurd hx List.not_mem_nil

theorem Arch.memCopy_of_notMem (h : ∀ i < n, x ≠ a.phys (wrap a.width (dest + i))) :
    a.memCopy src dest n mem x = mem x := by
  induction n with
  | zero => rfl
  | succ n ih =>
    rw [memCopy, store8, Mem.store_other _ _ (h n (Nat.lt_succ_self n))]
    exact ih fun i hi => h i (Nat.lt_succ_of_lt hi)

namespace Parsing

theorem stop_eq (h : Parsing a header stop p (t :: tags) s) :
    p + t.padded + tagsSize tags = stop := by
  have hends := h.ends
  rw [tagsSize_cons] at hends
  omega

theorem size_le (h : Parsing a header stop p (t :: tags) s) : p + t.size ≤ stop := by
  have hstop := h.stop_eq
  have hpadded := t.le_padded
  omega

theorem module_fields (h : Parsing a header stop p (t :: tags) s) (ht : t.type = 3) :
    a.load32 s.mem (p + a.offset + 8) = t.start ∧
      wrapSub 32 (a.load32 s.mem (p + a.offset + 12)) t.start = t.modSize := by
  have hsize := h.size_le
  have hmapped := h.mapped
  have hmodule := h.usable.1.module_size ht
  refine ⟨?_, ?_⟩
  · rw [Arch.load32_high (by omega), h.usable.1.start ht]
  · rw [Arch.load32_high (by omega), h.usable.1.stop ht, MbTag.modSize]

/-- What a copy does not touch is kept, but for the two fields. -/
theorem parse_module (h : Parsing a header stop p (t :: tags) s) (ht : t.type = 3) {part : Set Nat}
    (havoids : Avoids a s.kernelEndOffset t part) :
    Set.EqOn (s.multibootParseModule a (p + a.offset)).mem s.mem (part \ t.rewritten p) ∧
    (s.multibootParseModule a (p + a.offset)).kernelEndOffset =
      usedBy a s.kernelEndOffset t := by
  have hsize := h.size_le
  have hmapped := h.mapped
  have hmodule := h.usable.1.module_size ht
  obtain ⟨hstart, hmod⟩ := h.module_fields ht
  obtain ⟨⟨v, w, hmem⟩, hk⟩ := multibootParseModule_eq hstart hmod
  refine ⟨fun x hx => ?_, hk.trans (if_pos ht).symm⟩
  have hfirst : x ∉ Set.Ico (p + 8) (p + 8 + 4) :=
    fun hw => hx.2 ⟨ht, Set.Ico_subset_Ico_right (by omega) hw⟩
  have hsecond : x ∉ Set.Ico (p + 12) (p + 12 + 4) :=
    fun hw => hx.2 ⟨ht, Set.Ico_subset_Ico_left (by omega) hw⟩
  rw [hmem, Arch.store32_eqOn (by omega) w hsecond, Arch.store32_eqOn (by omega) v hfirst]
  exact Arch.memCopy_of_notMem fun i hi he => havoids ht i hi (he ▸ hx.1)

theorem call (h : Parsing a header stop p (t :: tags) s) {part : Set Nat}
    (havoids : Avoids a s.kernelEndOffset t part) :
    Set.EqOn (s.callParser a (p + a.offset) (tagParser t.type)).mem s.mem
      (part \ t.rewritten p) ∧
    (s.callParser a (p + a.offset) (tagParser t.type)).kernelEndOffset =
      usedBy a s.kernelEndOffset t := by
  by_cases ht : t.type = 3
  · rw [callParser_module ht]
    exact h.parse_module ht havoids
  · obtain ⟨hmem, hk⟩ := callParser_other ht (p + a.offset) (a := a) (s := s)
    rw [hmem, hk]
    exact ⟨Set.eqOn_refl .., (if_neg ht).symm⟩

/-- The rewritten fields are behind the size of a tag, and before its arguments and the next one. -/
theorem needed_kept (h : Parsing a header stop p (t :: tags) s) :
    Set.EqOn (s.callParser a (p + a.offset) (tagParser t.type)).mem s.mem
      (t.neededAfter p ∪ tagsNeeded (p + t.padded) tags) := by
  refine (h.call h.spared.1).1.mono ?_
  intro x hx
  refine ⟨hx, fun hf => ?_⟩
  obtain ⟨ht, hlo, hhi⟩ := hf
  rcases hx with (hx | hx) | hx
  · exact absurd hx.2 (Nat.not_lt.2 hlo)
  · exact absurd hx.1 (Nat.not_le.2 hhi)
  · have hle := (h.usable.2.needed_subset hx).1
    have hmodule := h.usable.1.module_size ht
    have hpadded := t.le_padded
    omega

theorem size_kept (h : Parsing a header stop p (t :: tags) s) :
    (s.callParser a (p + a.offset) (tagParser t.type)).mem.word (p + 4) = t.size := by
  refine (Mem.word_eqOn (h.needed_kept.mono ?_)).trans h.usable.1.size
  exact Set.subset_union_left.trans Set.subset_union_left

theorem next (h : Parsing a header stop p (t :: tags) s) :
    Parsing a header stop (p + t.padded) tags
      (s.callParser a (p + a.offset) (tagParser t.type)) := by
  refine ⟨(Nat.dvd_add_right h.aligned).2 t.padded_dvd, ?_,
    Nat.le_trans h.below (Nat.le_add_right ..), h.stop_eq, h.mapped, ?_⟩
  · exact h.usable.2.congr (h.needed_kept.mono Set.subset_union_right)
  · rw [(h.call h.spared.1).2]
    exact h.spared.2

theorem type_eq (h : Parsing a header stop p (t :: tags) s) :
    a.load32 s.mem (p + a.offset) = t.type := by
  have hsize := h.size_le
  have hheader := h.usable.1.header
  have hmapped := h.mapped
  exact (Arch.load32_high (i := 0) (by omega)).trans h.usable.1.type

theorem advance (ha : a.IsX86) (h : Parsing a header stop p (t :: tags) s) :
    wrapSub a.width (p + a.offset) (header + a.offset) < stop - header ∧
    alignCeiling a.width (wrap a.width (p + a.offset +
      a.load32 (s.callParser a (p + a.offset) (tagParser t.type)).mem (p + a.offset + 4))) 8 =
        p + t.padded + a.offset := by
  have hstop := h.stop_eq
  have hmapped := h.mapped
  have hbelow := h.below
  have hpadded := t.le_padded
  have hheader := h.usable.1.header
  refine ⟨?_, ?_⟩
  · rw [wrapSub_of_le (by omega) (by omega)]
    omega
  · rw [Arch.load32_high (by omega), h.size_kept]
    exact t.align_next ha h.aligned hheader (by omega)

theorem tagRounds_cons (ha : a.IsX86) (h : Parsing a header stop p (t :: tags) s) :
    s.tagRounds a (header + a.offset) (stop - header) (left + 1) (p + a.offset) =
      (s, p + a.offset) :: (s.callParser a (p + a.offset) (tagParser t.type)).tagRounds a
        (header + a.offset) (stop - header) left (p + t.padded + a.offset) := by
  obtain ⟨hcond, hnext⟩ := h.advance ha
  rw [Boot.tagRounds, if_pos hcond, h.type_eq]
  dsimp only
  rw [hnext]

theorem tagRounds_nil (h : Parsing a header stop p [] s) :
    s.tagRounds a (header + a.offset) (stop - header) left (p + a.offset) = [] := by
  cases left with
  | zero => rfl
  | succ left =>
    have hends : p = stop := h.ends
    have hmapped := h.mapped
    have hbelow := h.below
    rw [Boot.tagRounds, wrapSub_of_le (by omega) (by omega), if_neg (by omega)]

theorem calls (ha : a.IsX86) (h : Parsing a header stop p tags s) (hleft : tags.length ≤ left) :
    (s.tagRounds a (header + a.offset) (stop - header) left (p + a.offset)).filterMap
      (Boot.roundCall a) = tagCalls a p tags := by
  induction tags generalizing p s left with
  | nil =>
    rw [h.tagRounds_nil]
    rfl
  | cons t tags ih =>
    obtain ⟨left, rfl⟩ := Nat.exists_eq_succ_of_ne_zero (Nat.ne_zero_of_lt hleft)
    have hcall : Boot.roundCall a (s, p + a.offset) =
        (tagParser t.type).map (·, p + a.offset) := by
      rw [Boot.roundCall, h.type_eq]
    rw [h.tagRounds_cons ha, List.filterMap_cons, hcall, tagCalls,
      ih h.next (Nat.le_of_succ_le_succ hleft)]
    cases tagParser t.type <;> rfl

end Parsing

namespace Walk

/-- The rewritten fields are in the tag. -/
theorem next (h : Walk a header stop p (t :: tags) s) : Walk a header stop (p + t.padded) tags
    (s.callParser a (p + a.offset) (tagParser t.type)) := by
  have hcall := h.call h.block.1
  refine ⟨h.toParsing.next, h.formed.2.congr (hcall.1.mono ?_), ?_⟩
  · rw [h.stop_eq]
    have hbelow := h.below
    rintro x ⟨hlo, hhi⟩
    refine ⟨⟨by omega, hhi⟩, fun hf => ?_⟩
    obtain ⟨ht, -, hlt⟩ := hf
    have hmodule := h.usable.1.module_size ht
    have hpadded := t.le_padded
    omega
  · rw [hcall.2]
    exact h.block.2

theorem parserReads (h : Walk a header stop p (t :: tags) s) :
    ∀ x ∈ s.parserReads a (p + a.offset) (tagParser t.type),
      MayRead a header stop (t :: tags) x := by
  have hsize := h.size_le
  have hmapped := h.mapped
  have hbelow := h.below
  have hfield (i : Nat) : p + a.offset + i = p + i + a.offset := Nat.add_right_comm ..
  intro x hx
  unfold tagParser at hx
  split at hx
  · next ht =>
    have hmin := h.formed.1.meminfo ht
    exact .inl (Inside.span hbelow (by omega) hmapped x hx)
  · next ht =>
    have hmin := h.formed.1.biosdev ht
    rw [Boot.parserReads, hfield] at hx
    exact .inl (Inside.span (by omega) (by omega) hmapped x hx)
  · next ht =>
    obtain ⟨i, hi, hzero⟩ := h.formed.1.bootcmd ht
    rw [Boot.parserReads, hfield] at hx
    exact .inl (Inside.stringSpan (by omega) (by omega) hmapped hzero _ x hx)
  · next ht =>
    obtain ⟨i, hi, hzero⟩ := h.formed.1.args ht
    obtain ⟨hstart, hmod⟩ := h.module_fields ht
    have hkept : (s.multibootParseModule a (p + a.offset)).mem (p + 16 + i) = 0#8 := by
      refine ((h.parse_module ht h.block.1).1 ⟨⟨by omega, by omega⟩, fun hf => ?_⟩).trans hzero
      have hlt := hf.2.2
      omega
    rw [Boot.parserReads, hstart, hmod, hfield 8, hfield 16] at hx
    simp only [List.mem_append] at hx
    rcases hx with ((hx | hx) | hx) | hx
    · exact .inl (Inside.span (by omega) (by omega) hmapped x hx)
    · exact .inl (Inside.stringSpan (by omega) (by omega) hmapped hzero _ x hx)
    · exact .inr ⟨t, List.mem_filter.2 ⟨List.mem_cons_self, decide_eq_true ht⟩, hx⟩
    · exact .inl (Inside.strEqualSpan (by omega) (by omega) hmapped hkept (by decide) x hx)
  · exact absurd hx List.not_mem_nil

theorem roundReads (h : Walk a header stop p (t :: tags) s) :
    ∀ x ∈ Boot.roundReads a (s, p + a.offset), MayRead a header stop (t :: tags) x := by
  have hsize := h.size_le
  have hheader := h.formed.1.header
  intro x hx
  rw [Boot.roundReads, h.type_eq, List.mem_append] at hx
  rcases hx with hx | hx
  · exact .inl (Inside.span h.below (by omega) h.mapped x hx)
  · exact h.parserReads x hx

theorem reads (ha : a.IsX86) (h : Walk a header stop p tags s) (hleft : tags.length ≤ left) :
    ∀ x ∈ (s.tagRounds a (header + a.offset) (stop - header) left (p + a.offset)).flatMap
      (Boot.roundReads a), MayRead a header stop tags x := by
  induction tags generalizing p s left with
  | nil =>
    rw [h.tagRounds_nil]
    exact fun x hx => absurd hx List.not_mem_nil
  | cons t tags ih =>
    obtain ⟨left, rfl⟩ := Nat.exists_eq_succ_of_ne_zero (Nat.ne_zero_of_lt hleft)
    intro x hx
    rw [h.tagRounds_cons ha, List.flatMap_cons, List.mem_append] at hx
    rcases hx with hx | hx
    · exact h.roundReads x hx
    · refine (ih h.next (Nat.le_of_succ_le_succ hleft) x hx).imp_right fun ⟨u, hu, hxu⟩ => ?_
      exact ⟨u, modules_tail t tags hu, hxu⟩

end Walk

namespace Info

theorem parsing (h : Info a header tags s)
    (hspared : SparesNeeded a (header + 8) s.kernelEndOffset tags) :
    Parsing a header (infoEnd header tags) (header + 8) tags s where
  aligned := (Nat.dvd_add_right h.aligned).2 (Nat.dvd_refl 8)
  usable := h.formed.usable
  below := Nat.le_add_right ..
  ends := rfl
  mapped := h.mapped
  spared := hspared

/-- The loop starts at the first tag, and `total_size` is the size of the block. -/
theorem headerRounds_eq (ha : a.IsX86) (h : Info a header tags s) :
    s.headerRounds a MULTIBOOT_EAX_MAGIC header = s.tagRounds a (header + a.offset)
      (infoEnd header tags - header) MAX_TAGS (header + 8 + a.offset) := by
  obtain ⟨hstart, htotal, hfirst⟩ := header_eq ha h.aligned h.total h.mapped
  rw [Boot.headerRounds, if_neg (not_not.2 rfl)]
  dsimp only
  rw [hstart, htotal, hfirst]

end Info

namespace Block

theorem sparesNeeded (h : Block a header tags s) :
    SparesNeeded a (header + 8) s.kernelEndOffset tags :=
  h.spared.needed h.formed.usable (Set.Ico_subset_Ico_left (Nat.le_add_right ..))

theorem walk (h : Block a header tags s) :
    Walk a header (infoEnd header tags) (header + 8) tags s where
  toParsing := h.parsing h.sparesNeeded
  formed := h.formed
  block := h.spared

end Block

/-- The rounds are those of `multiboot_set_header`: it leaves the state that the last one leaves. -/
theorem multibootSetHeader_rounds (a : Arch) (magic header : Nat) (s : Boot) :
    s.multibootSetHeader a magic header = (s.headerRounds a magic header).foldl (fun _ round =>
      round.1.callParser a round.2 (tagParser (a.load32 round.1.mem round.2))) s := by
  have htags (start total left : Nat) (ctag : Nat) (s : Boot) :
      s.parseTags a start total left ctag =
        (s.tagRounds a start total left ctag).foldl (fun _ round =>
          round.1.callParser a round.2 (tagParser (a.load32 round.1.mem round.2))) s := by
    induction left generalizing s ctag with
    | zero => rfl
    | succ left ih =>
      rw [Boot.parseTags, Boot.tagRounds]
      split_ifs with hcond
      · exact ih _ _
      · rfl
  rw [Boot.multibootSetHeader, Boot.headerRounds]
  split_ifs with hmagic
  · rfl
  · exact htags ..

/-- Every tag is parsed once and in order, and nothing but the block and the modules is read. -/
theorem multibootSetHeader_parses (ha : a.IsX86) (h : Block a header tags s) :
    s.parserCalls a MULTIBOOT_EAX_MAGIC header = tagCalls a (header + 8) tags ∧
    ∀ x ∈ s.headerReads a MULTIBOOT_EAX_MAGIC header,
      MayRead a header (infoEnd header tags) tags x := by
  have hend : infoEnd header tags = header + 8 + tagsSize tags := rfl
  refine ⟨?_, fun x hx => ?_⟩
  · rw [Boot.parserCalls, h.headerRounds_eq ha]
    exact h.walk.calls ha h.few
  · rw [Boot.headerReads, if_neg (not_not.2 rfl), h.headerRounds_eq ha, List.mem_append] at hx
    rcases hx with hx | hx
    · exact .inl (Inside.span (Nat.le_refl _) (by omega) h.mapped x hx)
    · exact h.walk.reads ha h.few x hx

theorem block_high : Block (.amd64 0x101000) 0x9000 (twoTags 0x200000) (twoModules 0x200000) where
  aligned := by decide
  total := by decide
  formed := by
    refine ⟨⟨?_, ?_, ?_, ?_⟩, ⟨?_, ?_, ?_, ?_⟩, ⟨?_, ?_, ?_, ?_⟩, trivial⟩
    any_goals decide
    all_goals constructor <;> decide
  few := by decide
  ended := ⟨⟨0, 8, 0, 0⟩, rfl, rfl, rfl⟩
  mapped := by decide
  spared := ⟨fun _ => by decide, fun _ => by decide, fun _ => by decide, trivial⟩

theorem multibootSetHeader_parses_high :
    (twoModules 0x200000).parserCalls (.amd64 0x101000) MULTIBOOT_EAX_MAGIC 0x9000 =
      tagCalls (.amd64 0x101000) (0x9000 + 8) (twoTags 0x200000) ∧
    ∀ x ∈ (twoModules 0x200000).headerReads (.amd64 0x101000) MULTIBOOT_EAX_MAGIC 0x9000,
      MayRead (.amd64 0x101000) 0x9000 (infoEnd 0x9000 (twoTags 0x200000)) (twoTags 0x200000) x :=
  multibootSetHeader_parses (.inl rfl) block_high

/-- The relocation reads the modules, which are outside of the block. -/
theorem not_reads_inside : ¬ ∀ (a : Arch) (header : Nat) (tags : List MbTag) (s : Boot), a.IsX86 →
    Block a header tags s →
      s.parserCalls a MULTIBOOT_EAX_MAGIC header = tagCalls a (header + 8) tags ∧
      ∀ x ∈ s.headerReads a MULTIBOOT_EAX_MAGIC header,
        Inside a header (infoEnd header tags) x := by
  intro h
  have hread : 0x300000 ∈ (twoModules 0x200000).headerReads (.amd64 0x101000)
      MULTIBOOT_EAX_MAGIC 0x9000 := by
    decide +kernel
  have hinside := (h _ _ _ _ (.inl rfl) block_high).2 _ hread
  exact absurd hinside.1 (by decide)

end Tupai
