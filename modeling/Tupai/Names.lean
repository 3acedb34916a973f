import Tupai.Lookup
import Tupai.Ustar

namespace Tupai
set_option autoImplicit true

def TAR_FILENAME_SIZE : Nat := 100

def TAR_HEADER_SIZE : Nat := 157

def nameField (mem : Mem) (header : Nat) : List Byte :=
  (List.range TAR_FILENAME_SIZE).map fun i => mem (header + i)

/-- The string behind the field. -/
def behindField (w : Nat) (mem : Mem) (header : Nat) : Chars :=
  stringAt w mem (2 ^ w - TAR_FILENAME_SIZE) (header + TAR_FILENAME_SIZE)

/-- The strings that `initrd_create` has in its buffer, round by round. -/
def entryElements (w : Nat) (mem : Mem) (header : Nat) : List Chars :=
  (List.range (pathElementCount (tarFilename w mem header))).map fun i =>
    cstr (pathElementGet (tarFilename w mem header) [] i).2

theorem elements_append_slash (h : ∀ c ∈ s, c ≠ 0#8) (t : Chars) :
    elements (s ++ SLASH :: t) = elements s ++ elements t := by
  have hst : cstr (s ++ SLASH :: t) = s ++ SLASH :: cstr t := by
    rw [cstr, List.takeWhile_append_of_pos fun c hc => bne_iff_ne.2 (h c hc)]
    rfl
  rw [elements, elements, elements, hst, cstr_eq_self h, List.splitOn_append_cons_self,
    List.filter_append]

theorem elements_slashes (h : ∀ c ∈ t, c = SLASH) : elements t = [] := by
  induction t with
  | nil => rfl
  | cons c t ih =>
    obtain ⟨rfl, ht⟩ := List.forall_mem_cons.1 h
    exact (elements_append_slash (List.forall_mem_nil _) t).trans (ih ht)

theorem splitOn_flatten (s : Chars) : (s.splitOn SLASH).flatten = s.filter (· ≠ SLASH) := by
  induction s with
  | nil => rfl
  | cons c s ih =>
    by_cases h : c = SLASH
    · rw [h, splitOn_cons_slash, List.flatten_cons, List.nil_append, ih,
        List.filter_cons_of_neg (by decide)]
    · rw [splitOn_cons_other s h, List.filter_cons_of_pos (by simpa using h), ← ih]
      cases hs : s.splitOn SLASH with
      | nil => exact absurd hs (List.splitOn_ne_nil _ _)
      | cons x xs => rfl

theorem elements_flatten (s : Chars) : (elements s).flatten = (cstr s).filter (· ≠ SLASH) := by
  rw [elements, List.flatten_filter_ne_nil, splitOn_flatten]

theorem names_short (h : ∀ e ∈ elements s, e.length ≤ FILENAME_MAX - 1) : names s = elements s := by
  rw [names, List.map_congr_left fun e he => List.take_of_length_le (h e he), List.map_id']

/-- Behind a short path nothing but slashes can be added without a change of its elements. -/
theorem names_append_iff (h : ∀ c ∈ s ++ t, c ≠ 0#8) (hlen : s.length < FILENAME_MAX - 1) :
    names (s ++ t) = elements s ↔ ∀ c ∈ t, c = SLASH := by
  obtain ⟨hs, ht⟩ := List.forall_mem_append.1 h
  have hshort : ∀ e ∈ elements s, e.length < FILENAME_MAX - 1 := fun e he =>
    (elements_length he).trans_lt hlen
  constructor
  · intro hnames
    have hwhole : names (s ++ t) = elements (s ++ t) := by
      apply names_short
      intro e he
      have hcut : e.take (FILENAME_MAX - 1) ∈ elements s := hnames ▸ List.mem_map_of_mem he
      have hlt := hshort _ hcut
      rw [List.length_take] at hlt
      omega
    have hflat := congrArg List.flatten (hwhole.symm.trans hnames)
    rw [elements_flatten, elements_flatten, cstr_eq_self h, cstr_eq_self hs, List.filter_append,
      List.append_right_eq_self] at hflat
    intro c hc
    simpa using List.filter_eq_nil_iff.1 hflat c hc
  · intro hslash
    have hsame : elements (s ++ t) = elements s := by
      cases t with
      | nil => rw [List.append_nil]
      | cons c t =>
        obtain ⟨rfl, hrest⟩ := List.forall_mem_cons.1 hslash
        rw [elements_append_slash hs, elements_slashes hrest, List.append_nil]
    rw [names_short fun e he => Nat.le_of_lt (hshort e (hsame ▸ he)), hsame]

/-- A string in memory stops at its NUL, or goes on behind the first `m` bytes. -/
theorem stringAt_append (m n : Nat) (hw : addr + m < 2 ^ w) : stringAt w mem (m + n) addr =
    if 0#8 ∈ (List.range m).map fun i => mem (addr + i) then
      cstr ((List.range m).map fun i => mem (addr + i))
    else ((List.range m).map fun i => mem (addr + i)) ++ stringAt w mem n (addr + m) := by
  induction m generalizing addr with
  | zero => rw [Nat.zero_add]; rfl
  | succ m ih =>
    have hbytes : ((List.range (m + 1)).map fun i => mem (addr + i)) =
        mem addr :: (List.range m).map fun i => mem (addr + 1 + i) := by
      rw [List.range_succ_eq_map, List.map_cons, List.map_map]
      refine congrArg (mem addr :: ·) (List.map_congr_left fun i _ => ?_)
      rw [Function.comp_apply, Nat.succ_eq_add_one, Nat.add_assoc, Nat.add_comm 1]
    rw [hbytes, Nat.succ_add, stringAt, cstr_cons, wrap_of_lt (by omega), ih (by omega)]
    by_cases h0 : mem addr = 0#8
    · rw [if_pos h0, if_pos h0, if_pos (List.mem_cons.2 (.inl h0.symm))]
    · have hmem : 0#8 ∈ mem addr :: (List.range m).map (fun i => mem (addr + 1 + i)) ↔
          0#8 ∈ (List.range m).map fun i => mem (addr + 1 + i) := by
        rw [List.mem_cons, or_iff_right (Ne.symm h0)]
      rw [if_neg h0, if_neg h0]
      simp only [hmem]
      split_ifs
      · rfl
      · rw [List.cons_append, Nat.add_assoc, Nat.add_comm 1]

theorem stringAt_ne_zero (w : Nat) (mem : Mem) (room addr : Nat) :
    ∀ c ∈ stringAt w mem room addr, c ≠ 0#8 := by
  induction room generalizing addr with
  | zero => exact List.forall_mem_nil _
  | succ room ih =>
    rw [stringAt]
    split_ifs with h0
    · exact List.forall_mem_nil _
    · exact List.forall_mem_cons.2 ⟨h0, ih _⟩

theorem entryElements_eq (w : Nat) (mem : Mem) (header : Nat) :
    entryElements w mem header = names (tarFilename w mem header) := by
  have hlen := length_names (tarFilename w mem header)
  apply List.ext_getElem
  · rw [entryElements, List.length_map, List.length_range, hlen]
  · intro i hi hi'
    rw [← cstr_element [] (List.getElem?_eq_getElem hi')]
    simp only [entryElements, List.getElem_map, List.getElem_range]

theorem nameField_store (mem : Mem) (header : Nat) (b : Byte) :
    nameField (mem.store (header + TAR_FILENAME_SIZE) b) header = nameField mem header := by
  refine List.map_congr_left fun i hi => Mem.store_other mem b ?_
  have hlt := List.mem_range.1 hi
  omega

section field

variable {w header : Nat} {mem : Mem} (hfit : header + TAR_HEADER_SIZE ≤ 2 ^ w)
include hfit

theorem tarFilename_eq : tarFilename w mem header =
    if 0#8 ∈ nameField mem header then cstr (nameField mem header)
    else nameField mem header ++ behindField w mem header := by
  have hsize : TAR_HEADER_SIZE = 157 := rfl
  have hname : TAR_FILENAME_SIZE = 100 := rfl
  have hroom : 2 ^ w = TAR_FILENAME_SIZE + (2 ^ w - TAR_FILENAME_SIZE) := by omega
  rw [tarFilename, hroom, stringAt_append _ _ (by omega)]
  rfl

theorem entryElements_eq_iff : entryElements w mem header = elements (nameField mem header) ↔
    0#8 ∈ nameField mem header ∨ ∀ c ∈ behindField w mem header, c = SLASH := by
  have hlen : (nameField mem header).length = 100 := by
    rw [nameField, List.length_map, List.length_range]
    rfl
  rw [entryElements_eq, tarFilename_eq hfit]
  split_ifs with hnul
  · refine iff_of_true ?_ (.inl hnul)
    have hsame : elements (cstr (nameField mem header)) = elements (nameField mem header) := by
      rw [elements, elements, cstr_eq_self (cstr_ne_zero _)]
    rw [← hsame]
    apply names_short
    intro e he
    rw [hsame] at he
    exact (elements_length he).trans (hlen.trans_le (by decide))
  · rw [or_iff_right hnul]
    refine names_append_iff ?_ (hlen.trans_lt (by decide))
    refine List.forall_mem_append.2 ⟨fun c hc h0 => hnul (h0 ▸ hc), stringAt_ne_zero w mem _ _⟩

theorem behindField_store (b : Byte) :
    behindField w (mem.store (header + TAR_FILENAME_SIZE) b) header = if b = 0#8 then [] else
      b :: stringAt w (mem.store (header + TAR_FILENAME_SIZE) b) (2 ^ w - TAR_FILENAME_SIZE - 1)
        (wrap w (header + TAR_FILENAME_SIZE + 1)) := by
  have hsize : TAR_HEADER_SIZE = 157 := rfl
  have hname : TAR_FILENAME_SIZE = 100 := rfl
  have hroom : 2 ^ w - TAR_FILENAME_SIZE = 2 ^ w - TAR_FILENAME_SIZE - 1 + 1 := by omega
  rw [behindField, hroom, stringAt, Mem.store_same]
  rfl

/-- What is behind the field can change the elements unless the name ends inside of it. -/
theorem nul_of_independent (h : ∀ mem', nameField mem' header = nameField mem header →
    entryElements w mem' header = entryElements w mem header) : 0#8 ∈ nameField mem header := by
  by_contra hnul
  have hfield := nameField_store mem header
  have hended : entryElements w (mem.store (header + TAR_FILENAME_SIZE) 0#8) header =
      elements (nameField mem header) := by
    rw [(entryElements_eq_iff hfit).2 (.inr ?_), hfield]
    rw [behindField_store hfit, if_pos rfl]
    exact List.forall_mem_nil _
  have hlonger : entryElements w (mem.store (header + TAR_FILENAME_SIZE) 0x78#8) header =
      elements (nameField (mem.store (header + TAR_FILENAME_SIZE) 0x78#8) header) := by
    rw [h _ (hfield 0x78#8), ← h _ (hfield 0#8), hended, hfield]
  rcases (entryElements_eq_iff hfit).1 hlonger with hin | hslash
  · exact hnul (hfield 0x78#8 ▸ hin)
  · rw [behindField_store hfit, if_neg (by decide)] at hslash
    exact absurd (hslash _ List.mem_cons_self) (by decide)

/-- The elements of an entry are those of its field when the string ends with the field, or goes
on with slashes only. What is behind the field never matters when it ends inside. -/
theorem entryElements_iff :
    (entryElements w mem header = elements (nameField mem header) ↔
      0#8 ∈ nameField mem header ∨ ∀ c ∈ behindField w mem header, c = SLASH) ∧
    ((∀ mem', nameField mem' header = nameField mem header →
        entryElements w mem' header = entryElements w mem header) ↔
      0#8 ∈ nameField mem header) := by
  refine ⟨entryElements_eq_iff hfit, nul_of_independent hfit, fun hnul mem' hfield => ?_⟩
  rw [(entryElements_eq_iff hfit).2 (.inl hnul),
    (entryElements_eq_iff hfit).2 (.inl (hfield ▸ hnul)), hfield]

end field

theorem entryElements_twoFiles : entryElements 64 (memoryOf 4096 twoFilesBytes) 4096 =
    elements (nameField (memoryOf 4096 twoFilesBytes) 4096) :=
  (entryElements_iff (by decide)).1.2 (.inl (by decide +kernel))

/-- A name that fills its field, and a mode. -/
def fullName : List Byte := List.replicate 100 0x61#8 ++ List.replicate 7 0x30#8

/-- The digits of the mode become a part of the name. -/
theorem entryElements_fullName : entryElements 64 (memoryOf 4096 fullName) 4096 ≠
    elements (nameField (memoryOf 4096 fullName) 4096) := by
  rw [Ne, entryElements_eq_iff (by decide), not_or]
  refine ⟨by decide +kernel, fun hslash => ?_⟩
  have hmode : memoryOf 4096 fullName (4096 + TAR_FILENAME_SIZE) = 0x30#8 := by decide +kernel
  have hroom : 2 ^ 64 - TAR_FILENAME_SIZE = 2 ^ 64 - TAR_FILENAME_SIZE - 1 + 1 := by decide
  rw [behindField, hroom, stringAt, hmode, if_neg (by decide)] at hslash
  exact absurd (hslash _ List.mem_cons_self) (by decide)

namespace Kernel

theorem makeElement_congr (h : cstr a = cstr b) (w : Nat) (k : Kernel Devices) (fs : Int)
    (header : Nat) (last : Bool) (cinode : Int) :
    k.makeElement w fs header a last cinode = k.makeElement w fs header b last cinode := by
  have hcopy : strCpyN a [] FILENAME_MAX = strCpyN b [] FILENAME_MAX := by
    rw [strCpyN_eq, strCpyN_eq, h]
  simp only [makeElement, Vfs.mountChild, hcopy]

theorem mountElements_congr (h : names a = names b) (hrounds : i + rounds ≤ (names a).length)
    (w : Nat) (fs : Int) (header : Nat) (cinode : Int) (k : Kernel Devices) :
    mountElements w fs header a rounds i cinode k =
      mountElements w fs header b rounds i cinode k := by
  induction rounds generalizing i cinode k with
  | zero => rfl
  | succ rounds ih =>
    have hi : i < (names a).length := by omega
    have hname := cstr_element [] (List.getElem?_eq_getElem hi)
    have hsame : cstr (pathElementGet a [] i).2 = cstr (pathElementGet b [] i).2 := by
      rw [hname]
      exact (cstr_element [] (h ▸ List.getElem?_eq_getElem hi)).symm
    have hne := (name_of_mem (List.getElem_mem hi)).ne_nil
    rw [mountElements, mountElements, k.vfs.getChild_congr cinode (hname ▸ hne) hsame,
      makeElement_congr hsame]
    simp only [ih (i := i + 1) (by omega)]

theorem mountEntry_eq {k : Kernel Devices} (h : entryElements w k.mem header = names filename)
    (fs : Int) : k.mountEntry w fs header =
      mountElements w fs header filename (pathElementCount filename) 0 k.vfs.getRoot k := by
  rw [entryElements_eq] at h
  rw [mountEntry, ← length_names, ← length_names, ← h]
  exact mountElements_congr h (Nat.zero_add _).le w fs header _ k

end Kernel

end Tupai
