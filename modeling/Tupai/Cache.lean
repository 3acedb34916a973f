import Tupai.Tags

namespace Tupai
set_option autoImplicit true

/-- A tag with its physical address, and `kernel_end_offset` when it is processed. -/
structure Placed where
  p : Nat
  used : Nat
  tag : MbTag

def placeTags (a : Arch) : (p used : Nat) → (tags : List MbTag) → List Placed
  | _, _, [] => []
  | p, used, t :: tags => ⟨p, used, t⟩ :: placeTags a (p + t.padded) (usedBy a used t) tags

/-- The string behind the fields of a module tag, as far as a comparison with `"initrd"` looks. -/
def argsAt (mem : Mem) (p : Nat) : Chars := (List.range 7).map fun i => mem (p + 16 + i)

namespace Placed

def IsInitrd (mem : Mem) (x : Placed) : Prop := x.tag.type = 3 ∧ cstr (argsAt mem x.p) = INITRD

instance (mem : Mem) (x : Placed) : Decidable (x.IsInitrd mem) :=
  inferInstanceAs (Decidable (_ ∧ _))

/-- The virtual address of the copy of a module, and the length of the module. -/
def copy (a : Arch) (x : Placed) : Nat × Nat :=
  ((a.kernelAlloc x.used x.tag.modSize).1, x.tag.stop - x.tag.start)

/-- What `initrd_add` gets for a module. -/
def entry (a : Arch) (x : Placed) : InitrdT where
  start :=
    let start := wrapSub a.width (a.kernelAlloc x.used x.tag.modSize).1 a.offset
    wrap a.width (wrap 32 start + a.offset)
  size := wrap a.width (wrap 32 (x.tag.modSize + 1) + a.offset)
  args := x.p + a.offset + 16

end Placed

def initrdTags (a : Arch) (mem : Mem) (p used : Nat) (tags : List MbTag) : List Placed :=
  (placeTags a p used tags).filter fun x => decide (x.IsInitrd mem)

def InitrdT.Used (e : InitrdT) : Prop := e.size ≠ 0

instance (e : InitrdT) : Decidable e.Used := inferInstanceAs (Decidable (e.size ≠ 0))

def usedEntries (initrds : List InitrdT) : List InitrdT := initrds.filter fun e => decide e.Used

def InitrdT.extent (e : InitrdT) : Nat × Nat := (e.start, e.size)

/-- The entries in use are the copies of the initrd modules. -/
def CacheExact (a : Arch) (header : Nat) (tags : List MbTag) (s : Boot) : Prop :=
  (usedEntries (s.multibootSetHeader a MULTIBOOT_EAX_MAGIC header).initrds).map InitrdT.extent =
    (initrdTags a s.mem (header + 8) s.kernelEndOffset tags).map (Placed.copy a)

instance (a : Arch) (header : Nat) (tags : List MbTag) (s : Boot) :
    Decidable (CacheExact a header tags s) := inferInstanceAs (Decidable (_ = _))

/-- The cache as it is before the information block is parsed. -/
structure Unused (initrds : List InitrdT) : Prop where
  length : initrds.length = INITRD_MAX
  free : ∀ e ∈ initrds, ¬ e.Used

variable {a : Arch} {mem mem' : Mem} {s : Boot} {t : MbTag}

theorem initrdAdd_append {used : List InitrdT} (hused : ∀ e ∈ used, e.Used) (hfree : ¬ free.Used)
    (start size args : Nat) (rest : List InitrdT) :
    initrdAdd start size args (used ++ free :: rest) = used ++ ⟨start, size, args⟩ :: rest := by
  induction used with
  | nil => exact if_pos (not_not.1 hfree)
  | cons e used ih =>
    obtain ⟨he, hrest⟩ := List.forall_mem_cons.1 hused
    rw [List.cons_append, initrdAdd, if_neg he, ih hrest]
    rfl

theorem usedEntries_used (he : InitrdT.Used e) (es : List InitrdT) :
    usedEntries (e :: es) = e :: usedEntries es := List.filter_cons_of_pos (decide_eq_true he)

theorem usedEntries_free (he : ¬ InitrdT.Used e) (es : List InitrdT) :
    usedEntries (e :: es) = usedEntries es :=
  List.filter_cons_of_neg fun hused => he (of_decide_eq_true hused)

def initrdAddAll (es initrds : List InitrdT) : List InitrdT :=
  es.foldl (fun initrds e => initrdAdd e.start e.size e.args initrds) initrds

theorem usedEntries_addAll {used free : List InitrdT} (hused : ∀ e ∈ used, e.Used)
    (hfree : ∀ e ∈ free, ¬ e.Used) (hroom : es.length ≤ free.length) :
    usedEntries (initrdAddAll es (used ++ free)) = used ++ usedEntries es := by
  induction es generalizing used free with
  | nil =>
    have hall : usedEntries used = used :=
      List.filter_eq_self.2 fun e he => decide_eq_true (hused e he)
    have hnone : usedEntries free = [] :=
      List.filter_eq_nil_iff.2 fun e he => by rw [decide_eq_true_eq]; exact hfree e he
    rw [initrdAddAll, List.foldl_nil, usedEntries, List.filter_append, ← usedEntries, hall,
      ← usedEntries, hnone]
    rfl
  | cons e es ih =>
    cases free with
    | nil => exact absurd hroom (Nat.not_succ_le_zero _)
    | cons f free =>
      obtain ⟨hf, hrest⟩ := List.forall_mem_cons.1 hfree
      have hroom' := Nat.le_of_succ_le_succ hroom
      rw [initrdAddAll, List.foldl_cons, initrdAdd_append hused hf, ← initrdAddAll]
      by_cases he : e.Used
      · have hused' : ∀ x ∈ used ++ [e], x.Used := by
          simpa only [List.forall_mem_append, List.forall_mem_singleton] using ⟨hused, he⟩
        have hadd := ih hused' hrest hroom'
        rw [List.append_assoc, List.append_assoc] at hadd
        rw [usedEntries_used he]
        exact hadd
      · have hadd := ih hused (List.forall_mem_cons.2 ⟨he, hrest⟩) (Nat.le_succ_of_le hroom')
        rw [usedEntries_free he]
        exact hadd

theorem cstr_map_range {f g : Nat → Byte} (hzero : f k = 0#8) (h : ∀ i ≤ k, f i = g i) (n : Nat) :
    cstr ((List.range n).map f) = cstr ((List.range n).map g) := by
  induction n generalizing f g k with
  | zero => rfl
  | succ n ih =>
    rw [List.range_succ_eq_map, List.map_cons, List.map_cons, cstr_cons, cstr_cons,
      ← h 0 (Nat.zero_le k), List.map_map, List.map_map]
    split_ifs with hc
    · rfl
    · cases k with
      | zero => exact absurd hzero hc
      | succ k =>
        have hrest : ∀ i ≤ k, (f ∘ Nat.succ) i = (g ∘ Nat.succ) i := fun i hi =>
          h (i + 1) (Nat.succ_le_succ hi)
        rw [ih (f := f ∘ Nat.succ) hzero hrest]

theorem wrapSub_rewritten (hv : v < 2 ^ 32) (hn : n < 2 ^ 32) :
    wrapSub 32 (wrap 32 (v + n)) v = n := by
  rw [wrapSub, wrap, wrap]
  omega

theorem MbTag.modSize_lt (t : MbTag) : t.modSize < 2 ^ 32 := Nat.mod_lt _ (by decide)

/-- The fields of a module tag after it was parsed: the new start, and the end behind it. -/
theorem Arch.rewritten_fields (h : p + 16 + a.offset ≤ 2 ^ a.width) (hv : v < 2 ^ 32)
    (hn : n < 2 ^ 32) (hmem : mem' = a.store32 (a.store32 mem (p + a.offset + 8) v)
      (p + a.offset + 12)
        (wrap 32 (a.load32 (a.store32 mem (p + a.offset + 8) v) (p + a.offset + 8) + n))) :
    a.load32 mem' (p + a.offset + 8) = v ∧
      wrapSub 32 (a.load32 mem' (p + a.offset + 12)) (a.load32 mem' (p + a.offset + 8)) = n := by
  have hfirst : a.load32 (a.store32 mem (p + a.offset + 8) v) (p + a.offset + 8) = v := by
    rw [load32_high (by omega), store32_word (by omega) hv]
  rw [hfirst] at hmem
  have hapart : Set.Ico (p + 8) (p + 8 + 4) ⊆ (Set.Ico (p + 12) (p + 12 + 4))ᶜ := fun x hx hf =>
    absurd hf.1 (Nat.not_le.2 (Nat.lt_of_lt_of_le hx.2 (by omega)))
  have hstart : a.load32 mem' (p + a.offset + 8) = v := by
    rw [load32_high (by omega), hmem,
      Mem.word_eqOn ((store32_eqOn (by omega) _).mono hapart), store32_word (by omega) hv]
  refine ⟨hstart, ?_⟩
  have hstop : wrap 32 (v + n) < 2 ^ 32 := Nat.mod_lt _ (by decide)
  rw [hstart, load32_high (by omega), hmem, store32_word (by omega) hstop]
  exact wrapSub_rewritten hv hn

theorem multibootParseModule_mem (s : Boot) (a : Arch) (tag : Nat) :
    (s.multibootParseModule a tag).mem =
      let start := a.load32 s.mem (tag + 8)
      let modSize := wrapSub 32 (a.load32 s.mem (tag + 12)) start
      let naddr := (a.kernelAlloc s.kernelEndOffset modSize).1
      let mem := a.store32 (a.memCopy start naddr modSize s.mem) (tag + 8)
        (wrap 32 (wrapSub a.width naddr a.offset))
      a.store32 mem (tag + 12) (wrap 32 (a.load32 mem (tag + 8) + modSize)) := by
  rw [Boot.multibootParseModule]
  dsimp only
  split <;> rfl

theorem multibootParseModule_initrds :
    (s.multibootParseModule a tag).initrds =
      let mem := (s.multibootParseModule a tag).mem
      let start := a.load32 mem (tag + 8)
      if strEqual ((List.range 7).map fun i => a.load8 mem (tag + 16 + i)) INITRD = true then
        initrdAdd (wrap a.width (start + a.offset)) (wrap a.width (wrap 32
          (wrapSub 32 (a.load32 mem (tag + 12)) start + 1) + a.offset)) (tag + 16) s.initrds
      else s.initrds := by
  rw [multibootParseModule_mem, Boot.multibootParseModule]
  dsimp only
  split_ifs <;> rfl

namespace Parsing

/-- The comparison with `"initrd"` comes to the same before and after the tag is rewritten. -/
theorem args_equal (h : Parsing a header stop p (t :: tags) s) (ht : t.type = 3)
    (hmem : Set.EqOn mem s.mem (t.neededAfter p)) (used : Nat) :
    strEqual ((List.range 7).map fun i => a.load8 mem (p + a.offset + 16 + i)) INITRD = true ↔
      (Placed.mk p used t).IsInitrd s.mem := by
  have hsize := h.size_le
  have hmapped := h.mapped
  obtain ⟨k, hk, hzero⟩ := h.usable.1.args ht
  have hbyte : ∀ i ≤ k, a.load8 mem (p + a.offset + 16 + i) = s.mem (p + 16 + i) := by
    intro i hi
    have he : p + a.offset + 16 + i = p + 16 + i + a.offset := by omega
    rw [he, Arch.load8_high (by omega)]
    exact hmem (.inr ⟨by omega, by omega⟩)
  have hargs := cstr_map_range (f := fun i => a.load8 mem (p + a.offset + 16 + i))
    ((hbyte k (Nat.le_refl k)).trans hzero) hbyte 7
  have hinitrd : cstr INITRD = INITRD := by decide
  rw [strEqual_iff_right (by decide), hargs, hinitrd, Placed.IsInitrd, and_iff_right ht]
  rfl

theorem parse_initrds (h : Parsing a header stop p (t :: tags) s) (ht : t.type = 3) :
    (s.multibootParseModule a (p + a.offset)).initrds =
      if (Placed.mk p s.kernelEndOffset t).IsInitrd s.mem then
        initrdAddAll [(Placed.mk p s.kernelEndOffset t).entry a] s.initrds
      else s.initrds := by
  have hsize := h.size_le
  have hmapped := h.mapped
  have hmodule := h.usable.1.module_size ht
  obtain ⟨hstart, hmod⟩ := h.module_fields ht
  have hkept := h.needed_kept
  rw [callParser_module ht] at hkept
  have hargs := h.args_equal ht (hkept.mono Set.subset_union_left) s.kernelEndOffset
  have hmem := multibootParseModule_mem s a (p + a.offset)
  rw [hstart] at hmem
  dsimp only at hmem
  rw [hmod] at hmem
  obtain ⟨hv, hn⟩ := Arch.rewritten_fields (by omega) (Nat.mod_lt _ (by decide)) t.modSize_lt hmem
  rw [multibootParseModule_initrds]
  dsimp only
  rw [if_congr hargs rfl rfl, hn, hv]
  rfl

theorem call_initrds (h : Parsing a header stop p (t :: tags) s) :
    (s.callParser a (p + a.offset) (tagParser t.type)).initrds =
      if (Placed.mk p s.kernelEndOffset t).IsInitrd s.mem then
        initrdAddAll [(Placed.mk p s.kernelEndOffset t).entry a] s.initrds
      else s.initrds := by
  by_cases ht : t.type = 3
  · rw [callParser_module ht]
    exact h.parse_initrds ht
  · rw [if_neg fun hi => ht hi.1]
    unfold tagParser
    split
    · rfl
    · rfl
    · rfl
    · next hmodule => exact absurd hmodule ht
    · rfl

theorem parseTags_cons (ha : a.IsX86) (h : Parsing a header stop p (t :: tags) s) :
    s.parseTags a (header + a.offset) (stop - header) (left + 1) (p + a.offset) =
      (s.callParser a (p + a.offset) (tagParser t.type)).parseTags a (header + a.offset)
        (stop - header) left (p + t.padded + a.offset) := by
  obtain ⟨hcond, hnext⟩ := h.advance ha
  rw [Boot.parseTags, if_pos hcond, h.type_eq]
  dsimp only
  rw [hnext]

theorem parseTags_nil (h : Parsing a header stop p [] s) :
    s.parseTags a (header + a.offset) (stop - header) left (p + a.offset) = s := by
  cases left with
  | zero => rfl
  | succ left =>
    have hends : p = stop := h.ends
    have hmapped := h.mapped
    have hbelow := h.below
    rw [Boot.parseTags, wrapSub_of_le (by omega) (by omega), if_neg (by omega)]

end Parsing

theorem initrdTags_congr (h : TagsUsable mem p tags)
    (he : Set.EqOn mem' mem (tagsNeeded p tags)) (used : Nat) :
    initrdTags a mem' p used tags = initrdTags a mem p used tags := by
  induction tags generalizing p used with
  | nil => rfl
  | cons t tags ih =>
    have hrest := ih h.2 (he.mono Set.subset_union_right) (usedBy a used t)
    have hiff : (Placed.mk p used t).IsInitrd mem' ↔ (Placed.mk p used t).IsInitrd mem := by
      refine and_congr_right fun ht => ?_
      obtain ⟨k, hk, hzero⟩ := h.1.args ht
      have hbyte : ∀ i ≤ k, mem (p + 16 + i) = mem' (p + 16 + i) := by
        intro i hi
        refine (he (.inl ?_)).symm
        rw [t.needed_of_module ht]
        exact ⟨by omega, by omega⟩
      rw [argsAt, argsAt, cstr_map_range (f := fun i => mem (p + 16 + i)) hzero hbyte 7]
    unfold initrdTags at hrest ⊢
    rw [placeTags, List.filter_cons, List.filter_cons, hrest, decide_eq_decide.2 hiff]

theorem Parsing.initrds (ha : a.IsX86) (h : Parsing a header stop p tags s)
    (hleft : tags.length ≤ left) :
    (s.parseTags a (header + a.offset) (stop - header) left (p + a.offset)).initrds =
      initrdAddAll ((initrdTags a s.mem p s.kernelEndOffset tags).map (Placed.entry a))
        s.initrds := by
  induction tags generalizing p s left with
  | nil =>
    rw [h.parseTags_nil]
    rfl
  | cons t tags ih =>
    obtain ⟨left, rfl⟩ := Nat.exists_eq_succ_of_ne_zero (Nat.ne_zero_of_lt hleft)
    have hkept := h.needed_kept.mono Set.subset_union_right
    rw [h.parseTags_cons ha, ih h.next (Nat.le_of_succ_le_succ hleft), (h.call h.spared.1).2,
      initrdTags_congr h.usable.2 hkept, h.call_initrds, initrdTags.eq_1 a s.mem p, placeTags,
      List.filter_cons, ← initrdTags]
    split_ifs with hi hd hd
    · rfl
    · exact absurd (decide_eq_true hi) hd
    · exact absurd (of_decide_eq_true hd) hi
    · rfl

theorem Info.initrds (ha : a.IsX86) (h : Info a header tags s)
    (hspared : SparesNeeded a (header + 8) s.kernelEndOffset tags) :
    (s.multibootSetHeader a MULTIBOOT_EAX_MAGIC header).initrds =
      initrdAddAll ((initrdTags a s.mem (header + 8) s.kernelEndOffset tags).map (Placed.entry a))
        s.initrds := by
  rw [multibootSetHeader_eq ha h.aligned h.total h.mapped]
  exact (h.parsing hspared).initrds ha h.few

theorem Unused.addAll (h : Unused initrds) (hroom : es.length ≤ INITRD_MAX) :
    usedEntries (initrdAddAll es initrds) = usedEntries es := by
  have hnone : ∀ e ∈ ([] : List InitrdT), e.Used := fun _ he => absurd he List.not_mem_nil
  exact usedEntries_addAll hnone h.free (hroom.trans_eq h.length.symm)

theorem entry_start (ha : a.IsX86) (hlo : a.offset ≤ (Placed.copy a x).1)
    (hhi : (Placed.copy a x).1 < 2 ^ a.width) : (Placed.entry a x).start = (Placed.copy a x).1 := by
  rw [Placed.copy] at hlo hhi ⊢
  rw [Placed.entry]
  dsimp only at hlo hhi ⊢
  generalize (a.kernelAlloc x.used x.tag.modSize).1 = naddr at hlo hhi
  rw [wrapSub_of_le hlo hhi]
  have hsmall : naddr - a.offset < 2 ^ 32 := by
    rcases ha with ha | ha
    · rw [ha] at hhi ⊢
      change naddr < 2 ^ 64 at hhi
      change naddr - 0xFFFFFFFF80000000 < 2 ^ 32
      omega
    · rw [ha] at hhi
      exact Nat.lt_of_le_of_lt (Nat.sub_le ..) hhi
  rw [wrap_of_lt hsmall, Nat.sub_add_cancel hlo, wrap_of_lt hhi]

/-- The size that is recorded has the offset of the kernel in it. It is never that of the copy. -/
theorem entry_size_ne (ha : a.IsX86) (x : Placed) : (x.entry a).size ≠ x.tag.modSize := by
  have hlt := x.tag.modSize_lt
  rw [Placed.entry]
  dsimp only
  generalize x.tag.modSize = n at hlt
  rw [wrap, wrap]
  rcases ha with ha | ha
  · rw [ha]
    change ¬ ((n + 1) % 2 ^ 32 + 0xFFFFFFFF80000000) % 2 ^ 64 = n
    omega
  · rw [ha]
    change ¬ ((n + 1) % 2 ^ 32 + 0xC0000000) % 2 ^ 32 = n
    omega

theorem placeTags_tag (a : Arch) (p used : Nat) (tags : List MbTag) :
    (placeTags a p used tags).map Placed.tag = tags := by
  induction tags generalizing p used with
  | nil => rfl
  | cons t tags ih => exact congrArg (t :: ·) (ih _ _)

theorem TagsFormed.stop_lt (h : TagsFormed mem p tags) : ∀ t ∈ modules tags, t.stop < 2 ^ 32 := by
  induction tags generalizing p with
  | nil => exact fun t ht => absurd ht List.not_mem_nil
  | cons t tags ih =>
    by_cases ht : t.type = 3
    · rw [modules_cons_module ht, List.forall_mem_cons, ← h.1.stop ht]
      exact ⟨Mem.word_lt .., ih h.2⟩
    · rw [modules_cons_other ht]
      exact ih h.2

/-- Where the tags stay readable, the cache is right only as long as there is no initrd. -/
theorem cacheExact_iff (ha : a.IsX86) (h : Info a header tags s)
    (hspared : SparesNeeded a (header + 8) s.kernelEndOffset tags) (hfree : Unused s.initrds)
    (hordered : ∀ t ∈ modules tags, t.start < t.stop)
    (hfew : (initrdTags a s.mem (header + 8) s.kernelEndOffset tags).length ≤ INITRD_MAX) :
    CacheExact a header tags s ↔
      initrdTags a s.mem (header + 8) s.kernelEndOffset tags = [] := by
  have hmem : ∀ x ∈ initrdTags a s.mem (header + 8) s.kernelEndOffset tags,
      x.tag ∈ modules tags := by
    intro x hx
    obtain ⟨hplaced, hi⟩ := List.mem_filter.1 hx
    refine List.mem_filter.2 ⟨?_, decide_eq_true (of_decide_eq_true hi).1⟩
    rw [← placeTags_tag a (header + 8) s.kernelEndOffset tags]
    exact List.mem_map_of_mem hplaced
  rw [CacheExact, h.initrds ha hspared, hfree.addAll (by rwa [List.length_map])]
  generalize initrdTags a s.mem (header + 8) s.kernelEndOffset tags = xs at hmem
  constructor
  · intro he
    cases xs with
    | nil => rfl
    | cons x xs =>
      -- All of the entries are in use, as there are as many as initrds.
      have hlen := congrArg List.length he
      rw [List.length_map, List.length_map, ← List.length_map (f := Placed.entry a)] at hlen
      have hall : usedEntries ((x :: xs).map (Placed.entry a)) = (x :: xs).map (Placed.entry a) :=
        List.filter_eq_self.2 (List.length_filter_eq_length_iff.1 hlen)
      rw [hall] at he
      have hsize : (x.entry a).size = x.tag.stop - x.tag.start :=
        congrArg Prod.snd (List.cons.inj he).1
      have hx := hmem x List.mem_cons_self
      have hmod : x.tag.modSize = x.tag.stop - x.tag.start :=
        wrapSub_of_le (Nat.le_of_lt (hordered _ hx)) (h.formed.stop_lt _ hx)
      exact absurd (hsize.trans hmod.symm) (entry_size_ne ha x)
  · rintro rfl
    rfl

theorem unused_replicate : Unused (List.replicate INITRD_MAX ⟨0, 0, 0⟩) := ⟨rfl, by decide⟩

theorem cacheExact_high :
    CacheExact (.amd64 0x101000) 0x9000 (twoTags 0x200000) (twoModules 0x200000) :=
  (cacheExact_iff (.inl rfl) block_high.toInfo block_high.sparesNeeded unused_replicate (by decide)
    (by decide)).2 (by decide)

/-- One module of 16 bytes at 3 MiB, which is an initrd. -/
def initrdTag : List MbTag := [⟨3, 23, 0x300000, 0x300010⟩, ⟨0, 8, 0, 0⟩]

def initrdModule : Boot :=
  let word := fun n => [n, n / 2 ^ 8, n / 2 ^ 16, n / 2 ^ 24]
  let info := [40, 0, 3, 23, 0x300000, 0x300010, 0x74696E69, 0x6472, 0, 8]
  let bytes := info.flatMap word
  ⟨fun x => if x < 0x9000 then 0 else BitVec.ofNat 8 (bytes.getD (x - 0x9000) 0), 0, ⟨0, 0, 0, 0⟩,
    List.replicate INITRD_MAX ⟨0, 0, 0⟩⟩

theorem block_initrd : Block (.amd64 0x101000) 0x9000 initrdTag initrdModule where
  aligned := by decide
  total := by decide
  formed := by
    refine ⟨⟨?_, ?_, ?_, ?_⟩, ⟨?_, ?_, ?_, ?_⟩, trivial⟩
    any_goals decide
    all_goals constructor <;> decide
  few := by decide
  ended := ⟨⟨0, 8, 0, 0⟩, rfl, rfl, rfl⟩
  mapped := by decide
  spared := ⟨fun _ => by decide, fun _ => by decide, trivial⟩

theorem not_cacheExact_initrd : ¬ ∀ (a : Arch) (header : Nat) (tags : List MbTag) (s : Boot),
    a.IsX86 → Block a header tags s → Unused s.initrds →
      (∀ t ∈ modules tags, t.start < t.stop) →
        (initrdTags a s.mem (header + 8) s.kernelEndOffset tags).length ≤ INITRD_MAX →
          CacheExact a header tags s := by
  intro h
  have hexact := h _ _ _ _ (.inl rfl) block_initrd unused_replicate (by decide) (by decide)
  have hnot : ¬ CacheExact (.amd64 0x101000) 0x9000 initrdTag initrdModule := by decide +kernel
  exact hnot hexact

end Tupai
