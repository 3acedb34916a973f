import Mathlib.Data.Nat.Digits.Defs
import Mathlib.Data.BitVec
import Tupai.Path

namespace Tupai
set_option autoImplicit true

/-- The string at an address, up to its NUL. -/
def stringAt (w : Nat) (mem : Mem) : (room : Nat) → (addr : Nat) → Chars
  | 0, _ => []
  | room + 1, addr =>
    if mem addr = 0#8 then [] else mem addr :: stringAt w mem room (wrap w (addr + 1))

/-- The file name of a header. A `char*` may run through the whole memory. -/
def tarFilename (w : Nat) (mem : Mem) (header : Nat) : Chars := stringAt w mem (2 ^ w) header

def TAR_SIZE : Nat := 124

def TAR_TYPEFLAG : Nat := 156

def tarTypeflag (w : Nat) (mem : Mem) (header : Nat) : Byte := mem (wrap w (header + TAR_TYPEFLAG))

def octalField (w : Nat) (mem : Mem) : (room : Nat) → (field : Nat) → (csize : Nat) → Nat
  | 0, _, csize => csize
  | room + 1, field, csize =>
    if mem field = 0#8 then csize
    else octalField w mem room (wrap w (field + 1))
      (wrap w (wrap w (csize * 8) + toSize w ((mem field).toInt - 48)))

def tarSize (w : Nat) (mem : Mem) (header : Nat) : Nat :=
  octalField w mem 12 (wrap w (header + TAR_SIZE)) 0

/-- The next header, or 0 for `nullptr`. -/
def tarNext (w : Nat) (mem : Mem) (header : Nat) : Nat :=
  let offset := alignCeiling w (wrap w (512 + tarSize w mem header)) 512
  let nheader := wrap w (header + offset)
  if mem nheader = 0#8 then 0 else nheader

def tarData (w header : Nat) : Nat := wrap w (header + 512)

structure TarEntry where
  name : Chars
  typeflag : Byte
  data : List Byte

/-- The bytes that a member takes up: its header, and its data padded to whole blocks. -/
def TarEntry.extent (e : TarEntry) : Nat := 512 + 512 * ((e.data.length + 511) / 512)

/-- Memory holds a member from `header` on. -/
structure TarAt (mem : Mem) (header : Nat) (e : TarEntry) : Prop where
  name : ∀ i (h : i < e.name.length), mem (header + i) = e.name[i]
  nameEnd : mem (header + e.name.length) = 0#8
  nameChars : ∀ c ∈ e.name, c ≠ 0#8
  nameLen : 1 ≤ e.name.length ∧ e.name.length ≤ 99
  size : ∃ digits : List Nat, digits.length ≤ 12 ∧ (∀ d ∈ digits, d < 8) ∧
    (∀ i (h : i < digits.length), mem (header + TAR_SIZE + i) = BitVec.ofNat 8 (48 + digits[i])) ∧
    (digits.length < 12 → mem (header + TAR_SIZE + digits.length) = 0#8) ∧
    Nat.ofDigits 8 digits.reverse = e.data.length
  typeflag : mem (header + TAR_TYPEFLAG) = e.typeflag
  data : ∀ i (h : i < e.data.length), mem (header + 512 + i) = e.data[i]

/-- Memory holds an archive from `header` up to `stop`: members, and a zero block behind them. -/
inductive Archive (mem : Mem) : (header : Nat) → List TarEntry → (stop : Nat) → Prop where
  | zeros : (∀ i < 512, mem (header + i) = 0#8) → Archive mem header [] (header + 512)
  | entry : TarAt mem header e → Archive mem (header + e.extent) es stop →
      Archive mem header (e :: es) stop

theorem Archive.le (h : Archive mem header es stop) : header + 512 ≤ stop := by
  induction h with
  | zeros _ => exact le_refl _
  | entry _ _ ih =>
    rw [TarEntry.extent] at ih
    omega

theorem Archive.first (h : Archive mem header es stop) : mem header = 0#8 ↔ es = [] := by
  cases h with
  | zeros hz => exact iff_of_true (by simpa using hz 0 (by decide)) rfl
  | entry he _ =>
    have hlen := he.nameLen.1
    refine iff_of_false ?_ (List.cons_ne_nil _ _)
    have hname := he.name 0 hlen
    rw [Nat.add_zero] at hname
    rw [hname]
    exact he.nameChars _ (List.getElem_mem _)

theorem reads_cons {mem : Mem} {f : α → Byte} {c : α} {s : List α}
    (hs : ∀ i (h : i < (c :: s).length), mem (addr + i) = f (c :: s)[i]) :
    mem addr = f c ∧ ∀ i (h : i < s.length), mem (addr + 1 + i) = f s[i] := by
  refine ⟨hs 0 (Nat.succ_pos _), fun i hi => ?_⟩
  rw [Nat.add_assoc, Nat.add_comm 1]
  exact hs (i + 1) (Nat.succ_lt_succ hi)

theorem stringAt_eq (hs : ∀ i (h : i < s.length), mem (addr + i) = s[i])
    (hend : mem (addr + s.length) = 0#8) (hchars : ∀ c ∈ s, c ≠ 0#8)
    (hroom : s.length < room) (hw : addr + s.length < 2 ^ w) : stringAt w mem room addr = s := by
  induction s generalizing addr room with
  | nil =>
    obtain ⟨room, rfl⟩ := Nat.exists_eq_succ_of_ne_zero (Nat.ne_of_gt hroom)
    rw [List.length_nil, Nat.add_zero] at hend
    rw [stringAt, if_pos hend]
  | cons c s ih =>
    obtain ⟨room, rfl⟩ := Nat.exists_eq_succ_of_ne_zero (Nat.ne_zero_of_lt hroom)
    rw [List.length_cons] at hroom hw hend
    obtain ⟨h0, hbehind⟩ := reads_cons (f := id) hs
    rw [id_eq] at h0
    rw [stringAt, h0, if_neg (hchars c List.mem_cons_self), wrap_of_lt (by omega)]
    congr 1
    apply ih hbehind
    · rwa [Nat.add_comm s.length, ← Nat.add_assoc] at hend
    · exact fun d hd => hchars d (List.mem_cons_of_mem _ hd)
    · omega
    · omega

theorem TarAt.filename (h : TarAt mem header e) (hw : header + 512 < 2 ^ w) :
    tarFilename w mem header = e.name := by
  have := h.nameLen.2
  exact stringAt_eq h.name h.nameEnd h.nameChars (by omega) (by omega)

theorem digit_value : ∀ d < 8,
    BitVec.ofNat 8 (48 + d) ≠ 0#8 ∧ (BitVec.ofNat 8 (48 + d)).toInt - 48 = (d : Int) := by
  decide

theorem octalField_eq {digits : List Nat} (hlen : digits.length ≤ room)
    (hdigits : ∀ d ∈ digits, d < 8)
    (hs : ∀ i (h : i < digits.length), mem (field + i) = BitVec.ofNat 8 (48 + digits[i]))
    (hend : digits.length < room → mem (field + digits.length) = 0#8)
    (hw : field + digits.length < 2 ^ w) (h8 : 8 ≤ 2 ^ w)
    (hfit : csize * 8 ^ digits.length + Nat.ofDigits 8 digits.reverse < 2 ^ w) :
    octalField w mem room field csize =
      csize * 8 ^ digits.length + Nat.ofDigits 8 digits.reverse := by
  induction digits generalizing room field csize with
  | nil =>
    rw [List.reverse_nil, Nat.ofDigits_nil, List.length_nil, Nat.pow_zero, Nat.mul_one]
    cases room with
    | zero => rfl
    | succ room =>
      have hnul := hend (Nat.succ_pos room)
      rw [List.length_nil, Nat.add_zero] at hnul
      rw [octalField, if_pos hnul]
      rfl
  | cons d digits ih =>
    obtain ⟨hd, hrest⟩ := List.forall_mem_cons.1 hdigits
    obtain ⟨hne, hval⟩ := digit_value d hd
    rw [List.length_cons] at hlen hend hw
    obtain ⟨room, rfl⟩ := Nat.exists_eq_succ_of_ne_zero (Nat.ne_zero_of_lt hlen)
    obtain ⟨h0, hbehind⟩ := reads_cons (f := fun d => BitVec.ofNat 8 (48 + d)) hs
    have hsum : csize * 8 ^ (d :: digits).length + Nat.ofDigits 8 (d :: digits).reverse =
        (csize * 8 + d) * 8 ^ digits.length + Nat.ofDigits 8 digits.reverse := by
      rw [List.length_cons, List.reverse_cons, Nat.ofDigits_append, Nat.ofDigits_singleton,
        List.length_reverse]
      ring
    rw [hsum] at hfit ⊢
    have hle : csize * 8 + d ≤ (csize * 8 + d) * 8 ^ digits.length :=
      Nat.le_mul_of_pos_right _ (Nat.pow_pos (by decide))
    have hstep : wrap w (wrap w (csize * 8) + toSize w ((mem field).toInt - 48)) =
        csize * 8 + d := by
      rw [h0, hval, toSize_of_lt (by omega), wrap_of_lt (n := csize * 8) (by omega),
        wrap_of_lt (by omega)]
    rw [octalField, hstep, h0, if_neg hne, wrap_of_lt (by omega)]
    apply ih (by omega) hrest hbehind
    · intro hlt
      have := hend (Nat.succ_lt_succ hlt)
      rwa [Nat.add_comm digits.length, ← Nat.add_assoc] at this
    · omega
    · exact hfit

variable {mem : Mem} {e : TarEntry}

theorem TarAt.tarSize (h : TarAt mem header e) (hw : header + e.extent < 2 ^ w) :
    tarSize w mem header = e.data.length := by
  obtain ⟨digits, hlen, hd, hs, hend, hval⟩ := h.size
  rw [TarEntry.extent] at hw
  have hfit : 0 * 8 ^ digits.length + Nat.ofDigits 8 digits.reverse < 2 ^ w := by omega
  have hfield : header + TAR_SIZE + 12 < 2 ^ w := by
    rw [TAR_SIZE]
    omega
  rw [Tupai.tarSize, wrap_of_lt (by omega),
    octalField_eq hlen hd hs hend (by omega) (by omega) hfit, hval, Nat.zero_mul, Nat.zero_add]

theorem alignCeiling_extent (e : TarEntry) (hw : 512 + e.data.length + 512 ≤ 2 ^ w) :
    alignCeiling w (512 + e.data.length) 512 = e.extent := by
  have hext : e.extent = 512 + 512 * ((e.data.length + 511) / 512) := rfl
  rw [alignCeiling_exact (by decide) hw, hext]
  omega

/-- `tar_next` steps to the next member, and stops at the zero block. -/
theorem TarAt.tarNext (h : TarAt mem header e) (ha : Archive mem (header + e.extent) es stop)
    (hw : stop ≤ 2 ^ w) :
    Tupai.tarNext w mem header = if es = [] then 0 else header + e.extent := by
  have hstop := ha.le
  have hext : e.extent = 512 + 512 * ((e.data.length + 511) / 512) := rfl
  rw [Tupai.tarNext, h.tarSize (by omega), wrap_of_lt (n := 512 + _) (by omega),
    alignCeiling_extent e (by omega), wrap_of_lt (by omega)]
  simp only [ha.first]

end Tupai
