import Tupai.Archive

namespace Tupai
set_option autoImplicit true

/-- The `room` octal digits of a number, the highest first. -/
def octal : (room n : Nat) → List Nat
  | 0, _ => []
  | room + 1, n => octal room (n / 8) ++ [n % 8]

def octalChars (room n : Nat) : List Byte := (octal room n).map fun d => BitVec.ofNat 8 (48 + d)

/-- The 512 bytes of a header of an archive member. The fields that `tar_header_t` is not read for
hold anything. -/
structure UstarHeader (e : TarEntry) (header : List Byte) : Prop where
  length : header.length = 512
  filename : header.take 100 = e.name ++ List.replicate (100 - e.name.length) 0#8
  size : (header.drop TAR_SIZE).take 12 = octalChars 11 e.data.length ++ [0#8]
  typeflag : header[TAR_TYPEFLAG]? = some e.typeflag

def padding (n : Nat) : List Byte := List.replicate ((512 - n % 512) % 512) 0#8

/-- The bytes of an archive of members with their headers. -/
def encode : List (TarEntry × List Byte) → List Byte
  | [] => List.replicate 512 0#8
  | (e, header) :: es => header ++ (e.data ++ (padding e.data.length ++ encode es))

/-- A member that the format has room for. A name is a string. -/
structure Encodable (m : TarEntry × List Byte) : Prop where
  header : UstarHeader m.1 m.2
  name : m.1.name ≠ [] ∧ ∀ c ∈ m.1.name, c ≠ 0#8
  data : m.1.data.length < 8 ^ 11

def MemHolds (mem : Mem) (start : Nat) (bytes : List Byte) : Prop :=
  ∀ (i : Nat) (b : Byte), bytes[i]? = some b → mem (start + i) = b

/-- The headers that a loop over `tar_next` visits, as far as the fuel goes. -/
def tarWalk (w : Nat) (mem : Mem) : (fuel header : Nat) → Option (List Nat)
  | 0, _ => none
  | fuel + 1, header =>
    let next := tarNext w mem header
    if next = 0 then some [header] else (tarWalk w mem fuel next).map (header :: ·)

/-- The header is that of the member, and gives its data. -/
structure ReadsAs (w : Nat) (mem : Mem) (header : Nat) (e : TarEntry) : Prop where
  filename : MemHolds mem header e.name
  typeflag : tarTypeflag w mem header = e.typeflag
  size : tarSize w mem header = e.data.length
  data : MemHolds mem (tarData w header) e.data

/-- Walking the archive gives its members. -/
structure Decodes (w : Nat) (mem : Mem) (start : Nat) (es : List TarEntry) : Prop where
  walk : tarWalk w mem es.length start = some ((placed start es).map Prod.fst)
  members : ∀ d ∈ placed start es, ReadsAs w mem d.1 d.2

theorem length_octal (room n : Nat) : (octal room n).length = room := by
  induction room generalizing n with
  | zero => rfl
  | succ room ih => rw [octal, List.length_append, ih, List.length_singleton]

theorem octal_lt (room n : Nat) : ∀ d ∈ octal room n, d < 8 := by
  induction room generalizing n with
  | zero => exact fun _ hd => absurd hd List.not_mem_nil
  | succ room ih =>
    intro d hd
    rcases List.mem_append.1 hd with hd | hd
    · exact ih _ d hd
    · rw [List.mem_singleton.1 hd]
      exact Nat.mod_lt _ (by decide)

theorem ofDigits_octal (h : n < 8 ^ room) : Nat.ofDigits 8 (octal room n).reverse = n := by
  induction room generalizing n with
  | zero =>
    have hzero : n = 0 := Nat.lt_one_iff.1 h
    rw [hzero]
    rfl
  | succ room ih =>
    have hdiv : n / 8 < 8 ^ room := by
      rw [Nat.div_lt_iff_lt_mul (by decide)]
      exact h
    rw [octal, List.reverse_append, List.reverse_singleton, List.singleton_append,
      Nat.ofDigits_cons, ih hdiv]
    exact Nat.mod_add_div n 8

variable {mem : Mem} {w : Nat}

theorem MemHolds.append (h : MemHolds mem start (xs ++ ys)) :
    MemHolds mem start xs ∧ MemHolds mem (start + xs.length) ys := by
  constructor
  · intro i b hb
    apply h i b
    rw [List.getElem?_append_left (List.getElem?_eq_some_iff.1 hb).1]
    exact hb
  · intro i b hb
    rw [Nat.add_assoc]
    apply h (xs.length + i) b
    rw [List.getElem?_append_right (Nat.le_add_right ..), Nat.add_sub_cancel_left]
    exact hb

theorem MemHolds.field (h : MemHolds mem start bytes) (first n : Nat) :
    MemHolds mem (start + first) ((bytes.drop first).take n) := by
  intro i b hb
  rw [List.getElem?_take] at hb
  split_ifs at hb
  rw [List.getElem?_drop] at hb
  rw [Nat.add_assoc]
  exact h _ b hb

theorem MemHolds.getElem (h : MemHolds mem start bytes) (i : Nat) (hi : i < bytes.length) :
    mem (start + i) = bytes[i] := h i _ (List.getElem?_eq_getElem hi)

theorem UstarHeader.tarSize (hh : UstarHeader e header) (h : MemHolds mem start header)
    (hdata : e.data.length < 8 ^ 11) (hw : start + 512 ≤ 2 ^ w) (hfit : 8 ^ 11 ≤ 2 ^ w) :
    tarSize w mem start = e.data.length := by
  have hfield : TAR_SIZE = 124 := rfl
  have hlen := length_octal 11 e.data.length
  have hsize := h.field TAR_SIZE 12
  rw [hh.size] at hsize
  obtain ⟨hdigits, hend⟩ := hsize.append
  have hval := ofDigits_octal hdata
  have hsum : 0 * 8 ^ (octal 11 e.data.length).length +
      Nat.ofDigits 8 (octal 11 e.data.length).reverse = e.data.length := by
    rw [hval, Nat.zero_mul, Nat.zero_add]
  have hchars (i : Nat) (hi : i < (octal 11 e.data.length).length) :
      mem (start + TAR_SIZE + i) = BitVec.ofNat 8 (48 + (octal 11 e.data.length)[i]) := by
    rw [hdigits.getElem i (by rwa [octalChars, List.length_map])]
    simp only [octalChars, List.getElem_map]
  rw [Tupai.tarSize, wrap_of_lt (by omega), octalField_eq (by omega) (octal_lt 11 _) hchars, hsum]
  · intro _
    have hc := hend 0 0#8 rfl
    rwa [octalChars, List.length_map, Nat.add_zero] at hc
  · omega
  · exact (by decide : 8 ≤ 8 ^ 11).trans hfit
  · omega

theorem UstarHeader.name (hh : UstarHeader e header) (h : MemHolds mem start header) :
    MemHolds mem start e.name := by
  have hfield := h.field 0 100
  rw [List.drop_zero, hh.filename] at hfield
  exact hfield.append.1

theorem UstarHeader.first (hh : UstarHeader e header) (h : MemHolds mem start header)
    (hname : e.name ≠ [] ∧ ∀ c ∈ e.name, c ≠ 0#8) : mem start ≠ 0#8 := by
  obtain ⟨c, name, hc⟩ := List.exists_cons_of_ne_nil hname.1
  have hmem : mem start = c := hh.name h 0 c (by rw [hc]; rfl)
  rw [hmem]
  exact hname.2 c (hc ▸ List.mem_cons_self)

theorem length_padding (n : Nat) : n + (padding n).length = 512 * ((n + 511) / 512) := by
  rw [padding, List.length_replicate]
  omega

theorem length_encode_cons (hm : Encodable (e, header)) (es : List (TarEntry × List Byte)) :
    (encode ((e, header) :: es)).length = e.extent + (encode es).length := by
  have hpad := length_padding e.data.length
  simp only [encode, List.length_append, hm.header.length, TarEntry.extent]
  omega

theorem le_length_encode (hm : ∀ m ∈ es, Encodable m) : 512 ≤ (encode es).length := by
  induction es with
  | nil => rw [encode, List.length_replicate]
  | cons m es ih =>
    obtain ⟨e, header⟩ := m
    obtain ⟨hm, hes⟩ := List.forall_mem_cons.1 hm
    rw [length_encode_cons hm]
    exact (ih hes).trans (Nat.le_add_left ..)

theorem first_encode (hm : ∀ m ∈ es, Encodable m) (h : MemHolds mem start (encode es)) :
    mem start = 0#8 ↔ es = [] := by
  cases es with
  | nil => exact iff_of_true (h 0 0#8 rfl) rfl
  | cons m es =>
    have hm := hm m List.mem_cons_self
    exact iff_of_false (hm.header.first h.append.1 hm.name) (List.cons_ne_nil _ _)

section member

variable {e : TarEntry} {header : List Byte} {es : List (TarEntry × List Byte)}
  (hm : ∀ m ∈ (e, header) :: es, Encodable m)
  (h : MemHolds mem start (encode ((e, header) :: es)))
include hm h

theorem MemHolds.rest : MemHolds mem (start + e.extent) (encode es) := by
  have hhead := hm _ List.mem_cons_self
  have hpad := length_padding e.data.length
  have hrest := h.append.2.append.2.append.2
  rw [hhead.header.length] at hrest
  have haddr : start + 512 + e.data.length + (padding e.data.length).length = start + e.extent := by
    rw [TarEntry.extent]
    omega
  rwa [haddr] at hrest

theorem MemHolds.data : MemHolds mem (start + 512) e.data := by
  have hhead := hm _ List.mem_cons_self
  have hdata := h.append.2.append.1
  rwa [hhead.header.length] at hdata

variable (hw : start + (encode ((e, header) :: es)).length ≤ 2 ^ w) (hfit : 8 ^ 11 ≤ 2 ^ w)
include hw hfit

theorem tarSize_encode : tarSize w mem start = e.data.length := by
  have hhead := hm _ List.mem_cons_self
  rw [length_encode_cons hhead, TarEntry.extent] at hw
  exact hhead.header.tarSize h.append.1 hhead.data (by omega) hfit

theorem readsAs_encode : ReadsAs w mem start e := by
  have hhead := hm _ List.mem_cons_self
  have hsize := tarSize_encode hm h hw hfit
  have hfield : TAR_TYPEFLAG = 156 := rfl
  have hle := le_length_encode fun m hmem => hm m (List.mem_cons_of_mem _ hmem)
  rw [length_encode_cons hhead, TarEntry.extent] at hw
  refine ⟨hhead.header.name h.append.1, ?_, hsize, ?_⟩
  · rw [tarTypeflag, wrap_of_lt (by omega)]
    exact h.append.1 _ _ hhead.header.typeflag
  · rw [tarData, wrap_of_lt (by omega)]
    exact h.data hm

theorem tarNext_encode : tarNext w mem start = if es = [] then 0 else start + e.extent := by
  have hhead := hm _ List.mem_cons_self
  have hes : ∀ m ∈ es, Encodable m := fun m hmem => hm m (List.mem_cons_of_mem _ hmem)
  have hle := le_length_encode hes
  have hext : e.extent = 512 + 512 * ((e.data.length + 511) / 512) := rfl
  have hsize := tarSize_encode hm h hw hfit
  rw [length_encode_cons hhead] at hw
  rw [tarNext, hsize, wrap_of_lt (n := 512 + _) (by omega), alignCeiling_extent e (by omega),
    wrap_of_lt (by omega)]
  simp only [first_encode hes (h.rest hm)]

end member

/-- Walking an encoded archive visits its members in order, with their sizes and data. -/
theorem encode_decodes (hw : 64 ≤ w) (hes : es ≠ []) (hm : ∀ m ∈ es, Encodable m)
    (h : MemHolds mem start (encode es)) (hfit : start + (encode es).length ≤ 2 ^ w) :
    Decodes w mem start (es.map Prod.fst) := by
  have h64 : 2 ^ 64 ≤ 2 ^ w := Nat.pow_le_pow_right (by decide) hw
  have hroom : 8 ^ 11 ≤ 2 ^ w := (by decide : 8 ^ 11 ≤ 2 ^ 64).trans h64
  induction es generalizing start with
  | nil => exact absurd rfl hes
  | cons m es ih =>
    obtain ⟨e, header⟩ := m
    have hnext := tarNext_encode hm h hfit hroom
    have hes' : ∀ m ∈ es, Encodable m := fun m hmem => hm m (List.mem_cons_of_mem _ hmem)
    have hle := le_length_encode hes'
    have hext : e.extent = 512 + 512 * ((e.data.length + 511) / 512) := rfl
    have hlen := length_encode_cons (hm _ List.mem_cons_self) es
    have hfirst := readsAs_encode hm h hfit hroom
    cases hcase : es with
    | nil =>
      rw [hcase, if_pos rfl] at hnext
      refine ⟨?_, fun d hd => ?_⟩
      · change tarWalk w mem (0 + 1) start = _
        rw [tarWalk, hnext]
        rfl
      · cases List.mem_singleton.1 hd
        exact hfirst
    | cons m es' =>
      have hne : es ≠ [] := by
        rw [hcase]
        exact List.cons_ne_nil _ _
      have hrest := ih hne hes' (h.rest hm) (by omega)
      rw [if_neg hne] at hnext
      have hpos : start + e.extent ≠ 0 := by omega
      rw [← hcase]
      refine ⟨?_, fun d hd => ?_⟩
      · change tarWalk w mem ((es.map Prod.fst).length + 1) start = _
        rw [tarWalk, hnext, if_neg hpos, hrest.walk]
        rfl
      · rcases List.mem_cons.1 hd with rfl | hd
        · exact hfirst
        · exact hrest.members d hd

def ustarHeader (e : TarEntry) : List Byte :=
  (e.name ++ List.replicate (100 - e.name.length) 0#8) ++ (List.replicate 24 0#8 ++
    ((octalChars 11 e.data.length ++ [0#8]) ++ (List.replicate 20 0#8 ++
      (e.typeflag :: List.replicate 355 0#8))))

theorem ustarHeader_ok (e : TarEntry) (hname : e.name.length ≤ 100) :
    UstarHeader e (ustarHeader e) := by
  have hfill : (e.name ++ List.replicate (100 - e.name.length) 0#8).length = 100 := by
    rw [List.length_append, List.length_replicate]
    omega
  have hdigits : (octalChars 11 e.data.length ++ [0#8]).length = 12 := by
    rw [List.length_append, octalChars, List.length_map, length_octal]
    rfl
  rw [ustarHeader]
  generalize hname : e.name ++ List.replicate (100 - e.name.length) 0#8 = fill at hfill
  generalize hsize : octalChars 11 e.data.length ++ [0#8] = digits at hdigits
  refine ⟨?_, (List.take_left' hfill).trans hname.symm, ?_, ?_⟩
  · simp only [List.length_append, hfill, hdigits, List.length_replicate, List.length_cons]
  · have hbefore : (fill ++ List.replicate 24 0#8).length = TAR_SIZE := by
      rw [List.length_append, hfill, List.length_replicate]
      rfl
    rw [← List.append_assoc, List.drop_left' hbefore, List.take_left' hdigits, hsize]
  · have hbefore : (fill ++ List.replicate 24 0#8 ++ digits ++ List.replicate 20 0#8).length =
        TAR_TYPEFLAG := by
      simp only [List.length_append, hfill, hdigits, List.length_replicate]
      rfl
    rw [← List.append_assoc, ← List.append_assoc, ← List.append_assoc,
      List.getElem?_append_right (Nat.le_of_eq hbefore), hbefore, Nat.sub_self]
    rfl

def memoryOf (start : Nat) (bytes : List Byte) : Mem := fun a => bytes.getD (a - start) 0#8

theorem memoryOf_holds (start : Nat) (bytes : List Byte) :
    MemHolds (memoryOf start bytes) start bytes := by
  intro i b hb
  rw [memoryOf, Nat.add_sub_cancel_left, List.getD_eq_getElem?_getD, hb]
  rfl

def twoFiles : List TarEntry := [⟨[0x61#8], 0x30#8, []⟩, ⟨[0x62#8], 0x30#8, [1#8, 2#8, 3#8]⟩]

def twoFilesBytes : List Byte := encode (twoFiles.map fun e => (e, ustarHeader e))

theorem encode_decodes_twoFiles :
    Decodes 64 (memoryOf 4096 twoFilesBytes) 4096
      ((twoFiles.map fun e => (e, ustarHeader e)).map Prod.fst) := by
  have hm : ∀ m ∈ twoFiles.map fun e => (e, ustarHeader e), Encodable m := by
    intro m hm
    obtain ⟨e, he, rfl⟩ := List.mem_map.1 hm
    have hshort : ∀ e ∈ twoFiles, e.name.length ≤ 100 ∧ (e.name ≠ [] ∧ ∀ c ∈ e.name, c ≠ 0#8) ∧
        e.data.length < 8 ^ 11 := by decide
    obtain ⟨hlen, hname, hdata⟩ := hshort e he
    exact ⟨ustarHeader_ok e hlen, hname, hdata⟩
  exact encode_decodes (le_refl 64) (List.cons_ne_nil _ _) hm (memoryOf_holds 4096 twoFilesBytes)
    (by decide +kernel)

end Tupai
