import Tupai.Lib.LittleEndian
import Tupai.Lib.PageTable
import Tupai.Multiboot

namespace Tupai
open Lib
set_option autoImplicit true

/-- The bits of an entry that is present and writable. -/
def PRESENT_WRITABLE : Nat := 0b11

theorem or_present (h : 4096 ∣ p) : p ||| PRESENT_WRITABLE = p + 3 := by
  obtain ⟨q, rfl⟩ := h
  have hshift : 4096 * q = q <<< 12 := by rw [Nat.shiftLeft_eq, Nat.mul_comm]
  rw [hshift]
  exact (Nat.shiftLeft_add_eq_or_of_lt (show 3 < 2 ^ 12 by decide) q).symm

/-- The first 256 MiB of physical memory are mapped at each of these offsets, and no other address
is mapped. -/
def MapsAt (tr : Nat → Option Nat) (offsets : List Nat) : Prop :=
  ∀ v p, tr v = some p ↔ p < 2 ^ 28 ∧ ∃ o ∈ offsets, v = p + o

theorem MapsAt.phys {a : Arch} (h : MapsAt tr offsets) (hlow : 0 ∈ offsets)
    (hhigh : a.offset ∈ offsets) (ha : 2 ^ 28 ≤ a.offset)
    (hv : v < 2 ^ 28 ∨ a.offset ≤ v ∧ v < a.offset + 2 ^ 28) : tr v = some (a.phys v) := by
  rw [h, Arch.phys]
  split_ifs with hle
  · exact ⟨by omega, a.offset, hhigh, by omega⟩
  · exact ⟨by omega, 0, hlow, rfl⟩

namespace Amd64

/-- The labels of the section `.bss.boot`, which starts at a page boundary. -/
def p4Table (start : Nat) : Nat := start

def p3LoTable (start : Nat) : Nat := start + 512 * 8

def p2LoTable (start : Nat) : Nat := start + 512 * 8 + 512 * 8

def p1LoTables (start : Nat) : Nat := start + 512 * 8 + 512 * 8 + 512 * 8

def tablesEnd (start : Nat) : Nat := start + 512 * 8 * (3 + 128)

/-- Where a round of `map_p2_lo_loop` stores, and what. The registers have `w` bits. -/
def mapP2Lo (w start ecx : Nat) : Nat × Nat :=
  let eax := wrap w (512 * 8 * ecx)
  let eax := wrap w ((eax ||| PRESENT_WRITABLE) + p1LoTables start)
  let edx := wrap w (wrap w (8 * ecx) + p2LoTable start)
  (edx, eax)

def mapP1Lo (w start ecx : Nat) : Nat × Nat :=
  let eax := wrap w (4096 * ecx) ||| PRESENT_WRITABLE
  let edx := wrap w (wrap w (8 * ecx) + p1LoTables start)
  (edx, eax)

/-- `setup_paging` runs before there is paging, and writes the low halves of the entries. -/
def setupPaging (start : Nat) (mem : Mem) : Mem :=
  let mem := leStore mem (p4Table start) 4 (p3LoTable start ||| PRESENT_WRITABLE)
  let mem := leStore mem (p3LoTable start) 4 (p2LoTable start ||| PRESENT_WRITABLE)
  let mem := (List.range 128).foldl
    (fun mem ecx => leStore mem (mapP2Lo 32 start ecx).1 4 (mapP2Lo 32 start ecx).2) mem
  (List.range (512 * 128)).foldl
    (fun mem ecx => leStore mem (mapP1Lo 32 start ecx).1 4 (mapP1Lo 32 start ecx).2) mem

/-- How the CPU reads an entry of 8 bytes, which has `level` levels of tables below it. Entries for
pages of 2 MiB and of 1 GiB have bit 7 set. -/
def entry (mem : Mem) (level table i : Nat) : Entry :=
  let e := leNat mem (table + 8 * i) 8
  if e % 2 = 0 then .absent
  else if (level = 1 ∨ level = 2) ∧ e / 2 ^ 7 % 2 = 1 then
    .page (e / 2 ^ (12 + 9 * level) % 2 ^ (40 - 9 * level) * 2 ^ (12 + 9 * level))
  else .table (e / 2 ^ 12 % 2 ^ 40 * 2 ^ 12)

/-- The highest 17 bits of an address are the same. -/
def Canonical (v : Nat) : Prop := v < 2 ^ 47 ∨ 2 ^ 64 - 2 ^ 47 ≤ v ∧ v < 2 ^ 64

instance (v : Nat) : Decidable (Canonical v) :=
  inferInstanceAs (Decidable (v < 2 ^ 47 ∨ 2 ^ 64 - 2 ^ 47 ≤ v ∧ v < 2 ^ 64))

/-- The physical address behind `v`, unless there is a page fault. -/
def translate (mem : Mem) (cr3 v : Nat) : Option Nat :=
  if Canonical v then walk 12 9 (entry mem) 4 cr3 v else none

/-- `mov %rax, (addr)` with paging, for an address that is a multiple of 8. -/
def movAbs (cr3 : Nat) (mem : Mem) (x : Nat × Nat) : Option Mem :=
  (translate mem cr3 x.1).map fun p => leStore mem p 8 x.2

/-- `setup_paging64` runs with the tables of `setup_paging`, which are at `cr3`. It fills in tables
of its own. -/
def setupPaging64 (start cr3 : Nat) (mem : Mem) : Option Mem := do
  let mem ← movAbs cr3 mem (p4Table start, p3LoTable start ||| PRESENT_WRITABLE)
  let mem ← movAbs cr3 mem (p4Table start + 511 * 8, p3LoTable start ||| PRESENT_WRITABLE)
  let mem ← movAbs cr3 mem (p3LoTable start, p2LoTable start ||| PRESENT_WRITABLE)
  let mem ← movAbs cr3 mem (p3LoTable start + 510 * 8, p2LoTable start ||| PRESENT_WRITABLE)
  let mem ← (List.range 128).foldlM (fun mem rcx => movAbs cr3 mem (mapP2Lo 64 start rcx)) mem
  (List.range (512 * 128)).foldlM (fun mem rcx => movAbs cr3 mem (mapP1Lo 64 start rcx)) mem

/-- The `n`-th entry of the tables from `start` on, which map the first `k` parts of 2 MiB from the
entries `is` of the P4 table and the entries `js` of the P3 table. -/
def slot (start k : Nat) (is js : List Nat) (n : Nat) : Nat :=
  if n < 512 then if n ∈ is then p3LoTable start + 3 else 0
  else if n < 1024 then if n - 512 ∈ js then p2LoTable start + 3 else 0
  else if n < 1536 then if n - 1024 < k then p1LoTables start + 4096 * (n - 1024) + 3 else 0
  else 4096 * (n - 1536) + 3

def Tables (mem : Mem) (start k : Nat) (is js : List Nat) : Prop :=
  ∀ n < 512 * (3 + k), leNat mem (start + 8 * n) 8 = slot start k is js n

/-- All that is stored in these tables. -/
def tableStores (start k : Nat) (is js : List Nat) : List (Nat × Nat) :=
  is.map (fun i => (p4Table start + 8 * i, p3LoTable start + 3)) ++
    js.map (fun j => (p3LoTable start + 8 * j, p2LoTable start + 3)) ++
    (List.range k).map (fun i => (p2LoTable start + 8 * i, p1LoTables start + 4096 * i + 3)) ++
    (List.range (512 * k)).map fun i => (p1LoTables start + 8 * i, 4096 * i + 3)

variable {mem : Mem} {start k : Nat} {is js : List Nat}

theorem entry_absent (h : leNat mem (table + 8 * i) 8 = 0) (level : Nat) :
    entry mem level table i = .absent := by
  rw [entry, h]
  rfl

theorem entry_present (h : leNat mem (table + 8 * i) 8 = base + 3) (hbase : 4096 ∣ base)
    (hlt : base < 2 ^ 52) (level : Nat) : entry mem level table i = .table base := by
  have hodd : ¬ (base + 3) % 2 = 0 := by omega
  have hsmall : ¬ ((level = 1 ∨ level = 2) ∧ (base + 3) / 2 ^ 7 % 2 = 1) := by omega
  have hbits : (base + 3) / 2 ^ 12 % 2 ^ 40 * 2 ^ 12 = base := by omega
  rw [entry, h, if_neg hodd, if_neg hsmall, hbits]

namespace Tables

theorem congr (h : Tables mem start k is js)
    (hm : ∀ a, start ≤ a → a < start + 512 * 8 * (3 + k) → mem' a = mem a) :
    Tables mem' start k is js := by
  intro n hn
  rw [← h n hn]
  exact leNat_congr fun a ha hb => hm a (by omega) (by omega)

theorem p4 (h : Tables mem start k is js) (hi : i < 512) :
    leNat mem (p4Table start + 8 * i) 8 = if i ∈ is then p3LoTable start + 3 else 0 := by
  have hload := h i (by omega)
  rwa [slot, if_pos hi] at hload

theorem p3 (h : Tables mem start k is js) (hi : i < 512) :
    leNat mem (p3LoTable start + 8 * i) 8 = if i ∈ js then p2LoTable start + 3 else 0 := by
  have hload := h (512 + i) (by omega)
  have haddr : start + 8 * (512 + i) = p3LoTable start + 8 * i := by
    rw [p3LoTable]
    omega
  rwa [haddr, slot, if_neg (by omega), if_pos (by omega), Nat.add_sub_cancel_left] at hload

theorem p2 (h : Tables mem start k is js) (hi : i < 512) :
    leNat mem (p2LoTable start + 8 * i) 8 =
      if i < k then p1LoTables start + 4096 * i + 3 else 0 := by
  have hload := h (1024 + i) (by omega)
  have haddr : start + 8 * (1024 + i) = p2LoTable start + 8 * i := by
    rw [p2LoTable]
    omega
  rwa [haddr, slot, if_neg (by omega), if_neg (by omega), if_pos (by omega),
    Nat.add_sub_cancel_left] at hload

theorem p1 (h : Tables mem start k is js) (hi : i < 512 * k) :
    leNat mem (p1LoTables start + 8 * i) 8 = 4096 * i + 3 := by
  have hload := h (1536 + i) (by omega)
  have haddr : start + 8 * (1536 + i) = p1LoTables start + 8 * i := by
    rw [p1LoTables]
    omega
  rwa [haddr, slot, if_neg (by omega), if_neg (by omega), if_neg (by omega),
    Nat.add_sub_cancel_left] at hload

theorem leads_p1 (h : Tables mem start k is js) (hk : k ≤ 512) (hj : j < k) (hi : i < 512) :
    Leads 12 9 (entry mem) 0 (p1LoTables start + 4096 * j) i (2 ^ 21 * j + 2 ^ 12 * i)
      (2 ^ 12) := by
  have hload := h.p1 (i := 512 * j + i) (by omega)
  have haddr : p1LoTables start + 8 * (512 * j + i) = p1LoTables start + 4096 * j + 8 * i := by
    omega
  have hvalue : 4096 * (512 * j + i) + 3 = 2 ^ 21 * j + 2 ^ 12 * i + 3 := by omega
  rw [haddr, hvalue] at hload
  exact .inr ⟨_, entry_present hload (by omega) (by omega) 0, linear_page 12 9 _ _⟩

variable (h : Tables mem start k is js) (hk : k ≤ 512) (hstart : 4096 ∣ start)
  (hend : start < 2 ^ 51)

include h hk hstart hend

theorem leads_p2 (hj : j < k) :
    Leads 12 9 (entry mem) 1 (p2LoTable start) j (2 ^ 21 * j) (2 ^ 21) := by
  have hload := h.p2 (i := j) (by omega)
  rw [if_pos hj] at hload
  refine .inr ⟨_, entry_present hload ?_ ?_ 1, ?_⟩
  · rw [p1LoTables]
    omega
  · rw [p1LoTables]
    omega
  · exact Linear.succ (k := 512) (fun i hi => h.leads_p1 hk hj hi) fun i hle hlt => by omega

theorem linear_p2 : Linear 12 9 (entry mem) 2 (p2LoTable start) 0 (2 ^ 21 * k) := by
  refine Linear.succ (fun j hj => ?_) fun i hle hlt => .inl ⟨rfl, ?_⟩
  · rw [Nat.zero_add]
    exact h.leads_p2 hk hstart hend hj
  · have hload := h.p2 (i := i) (by omega)
    rw [if_neg (by omega)] at hload
    exact entry_absent hload 1

theorem leads_p3 (hi : i < 512) :
    Leads 12 9 (entry mem) 2 (p3LoTable start) i 0 (if i ∈ js then 2 ^ 21 * k else 0) := by
  have hload := h.p3 hi
  split_ifs at hload ⊢ with hj
  · refine .inr ⟨_, entry_present hload ?_ ?_ 2, h.linear_p2 hk hstart hend⟩
    · rw [p2LoTable]
      omega
    · rw [p2LoTable]
      omega
  · exact .inl ⟨rfl, entry_absent hload 2⟩

/-- What the walk from the P4 table finds. -/
theorem walk (v : Nat) :
    walk 12 9 (entry mem) 4 (p4Table start) v =
      if v / 2 ^ 39 % 2 ^ 9 ∈ is ∧ v / 2 ^ 30 % 2 ^ 9 ∈ js ∧ v % 2 ^ 30 < 2 ^ 21 * k then
        some (v % 2 ^ 30)
      else none := by
  have hi : v / 2 ^ (12 + 9 * 3) % 2 ^ 9 < 512 := Nat.mod_lt _ (by decide)
  have hj : v / 2 ^ (12 + 9 * 2) % 2 ^ 9 < 512 := Nat.mod_lt _ (by decide)
  have hload := h.p4 hi
  have hwalk := (h.leads_p3 hk hstart hend hj).walk rfl
  rw [Lib.walk]
  split_ifs at hload with hmem
  · rw [entry_present hload (by rw [p3LoTable]; omega) (by rw [p3LoTable]; omega)]
    dsimp only
    rw [hwalk, Nat.zero_add]
    by_cases hjs : v / 2 ^ (12 + 9 * 2) % 2 ^ 9 ∈ js
    · rw [if_pos hjs]
      by_cases hlow : v % 2 ^ 30 < 2 ^ 21 * k
      · rw [if_pos hlow, if_pos ⟨hmem, hjs, hlow⟩]
      · rw [if_neg hlow, if_neg fun hand => hlow hand.2.2]
    · rw [if_neg hjs, if_neg (Nat.not_lt_zero _), if_neg fun hand => hjs hand.2.1]
  · rw [entry_absent hload, if_neg fun hand => hmem hand.1]

end Tables

section stores

theorem mem_tableStores : x ∈ tableStores start k is js ↔
    (∃ i ∈ is, (p4Table start + 8 * i, p3LoTable start + 3) = x) ∨
    (∃ j ∈ js, (p3LoTable start + 8 * j, p2LoTable start + 3) = x) ∨
    (∃ i < k, (p2LoTable start + 8 * i, p1LoTables start + 4096 * i + 3) = x) ∨
    ∃ i < 512 * k, (p1LoTables start + 8 * i, 4096 * i + 3) = x := by
  simp only [tableStores, List.mem_append, List.mem_map, List.mem_range, or_assoc]

theorem slot_mem (hk : k ≤ 512) (hn : n < 512 * (3 + k)) (hne : slot start k is js n ≠ 0) :
    (start + 8 * n, slot start k is js n) ∈ tableStores start k is js := by
  rw [mem_tableStores]
  rw [slot] at hne ⊢
  split_ifs at hne ⊢ with h4 hi h3 hj h2 hlt
  · exact .inl ⟨n, hi, rfl⟩
  · exact absurd rfl hne
  · refine .inr (.inl ⟨n - 512, hj, ?_⟩)
    rw [p3LoTable, Prod.mk.injEq]
    exact ⟨by omega, rfl⟩
  · exact absurd rfl hne
  · refine .inr (.inr (.inl ⟨n - 1024, hlt, ?_⟩))
    rw [p2LoTable, Prod.mk.injEq]
    exact ⟨by omega, rfl⟩
  · exact absurd rfl hne
  · refine .inr (.inr (.inr ⟨n - 1536, by omega, ?_⟩))
    rw [p1LoTables, Prod.mk.injEq]
    exact ⟨by omega, rfl⟩

variable (hk : k ≤ 512) (his : ∀ i ∈ is, i < 512) (hjs : ∀ j ∈ js, j < 512)

include hk his hjs

theorem tableStores_slot (hx : x ∈ tableStores start k is js) :
    x.2 ≠ 0 ∧ ∃ n < 512 * (3 + k), x = (start + 8 * n, slot start k is js n) := by
  rcases mem_tableStores.1 hx with ⟨i, hi, rfl⟩ | ⟨j, hj, rfl⟩ | ⟨i, hi, rfl⟩ | ⟨i, hi, rfl⟩
  · have hlt := his i hi
    refine ⟨Nat.succ_ne_zero _, i, by omega, ?_⟩
    rw [slot, if_pos hlt, if_pos hi]
    rfl
  · have hlt := hjs j hj
    refine ⟨Nat.succ_ne_zero _, 512 + j, by omega, ?_⟩
    rw [slot, if_neg (by omega), if_pos (by omega), Nat.add_sub_cancel_left, if_pos hj, p3LoTable]
    congr 1
    omega
  · refine ⟨Nat.succ_ne_zero _, 1024 + i, by omega, ?_⟩
    rw [slot, if_neg (by omega), if_neg (by omega), if_pos (by omega), Nat.add_sub_cancel_left,
      if_pos hi, p2LoTable]
    congr 1
    omega
  · refine ⟨Nat.succ_ne_zero _, 1536 + i, by omega, ?_⟩
    rw [slot, if_neg (by omega), if_neg (by omega), if_neg (by omega), Nat.add_sub_cancel_left]
    congr 1
    rw [p1LoTables]
    omega

/-- Where there were zeros, the tables have what is stored in them, by words of 4 or 8 bytes. -/
theorem tables_stores (hw : w = 4 ∨ w = 8) (hstart : 8 ∣ start) (hend : start < 2 ^ 31)
    (hzero : ∀ a, start ≤ a → a < start + 512 * 8 * (3 + k) → mem a = 0#8) :
    Tables (leStores w mem (tableStores start k is js)) start k is js := by
  intro n hn
  have hw8 : w ≤ 8 := by omega
  have hslots : ∀ x ∈ tableStores start k is js, 8 ∣ x.1 := by
    intro x hx
    obtain ⟨-, m, -, rfl⟩ := tableStores_slot hk his hjs hx
    exact (Nat.dvd_add_right hstart).2 ⟨m, rfl⟩
  have hzero' : ∀ a, start + 8 * n ≤ a → a < start + 8 * n + 8 → mem a = 0#8 :=
    fun a hle hlt => hzero a (by omega) (by omega)
  have hsame : ∀ x ∈ tableStores start k is js, x.1 = start + 8 * n →
      x.2 = slot start k is js n := by
    intro x hx he
    obtain ⟨-, m, -, rfl⟩ := tableStores_slot hk his hjs hx
    obtain rfl : m = n := by
      dsimp only at he
      omega
    rfl
  by_cases hne : slot start k is js n = 0
  · rw [hne]
    refine leNat_unstored hw8 hslots hzero' ((Nat.dvd_add_right hstart).2 ⟨n, rfl⟩)
      fun x hx he => ?_
    exact (tableStores_slot hk his hjs hx).1 ((hsame x hx he).trans hne)
  · have hlt : slot start k is js n < 2 ^ 32 := by
      rw [slot, p3LoTable, p2LoTable, p1LoTables]
      split_ifs <;> omega
    have hpow : 2 ^ 32 ≤ 2 ^ (8 * w) := Nat.pow_le_pow_right Nat.two_pos (by omega)
    exact leNat_stored hw8 hslots hzero' (slot_mem hk hn hne) hsame (by omega)

end stores

section setup

variable {w : Nat}

theorem mapP2Lo_eq (hw : 2 ^ 32 ≤ 2 ^ w) (hend : tablesEnd start ≤ 2 ^ 28) (hi : i < 128) :
    mapP2Lo w start i = (p2LoTable start + 8 * i, p1LoTables start + 4096 * i + 3) := by
  rw [tablesEnd] at hend
  have heax : 512 * 8 * i + 3 + p1LoTables start = p1LoTables start + 4096 * i + 3 := by omega
  have heaxlt : p1LoTables start + 4096 * i + 3 < 2 ^ w := by
    rw [p1LoTables]
    omega
  have hedxlt : 8 * i + p2LoTable start < 2 ^ w := by
    rw [p2LoTable]
    omega
  rw [mapP2Lo, wrap_of_lt (by omega : 512 * 8 * i < 2 ^ w), or_present ⟨i, rfl⟩, heax,
    wrap_of_lt heaxlt, wrap_of_lt (by omega : 8 * i < 2 ^ w), wrap_of_lt hedxlt,
    Nat.add_comm (8 * i)]

theorem mapP1Lo_eq (hw : 2 ^ 32 ≤ 2 ^ w) (hend : tablesEnd start ≤ 2 ^ 28)
    (hi : i < 512 * 128) :
    mapP1Lo w start i = (p1LoTables start + 8 * i, 4096 * i + 3) := by
  rw [tablesEnd] at hend
  have hedxlt : 8 * i + p1LoTables start < 2 ^ w := by
    rw [p1LoTables]
    omega
  rw [mapP1Lo, wrap_of_lt (by omega : 4096 * i < 2 ^ w), or_present ⟨i, rfl⟩,
    wrap_of_lt (by omega : 8 * i < 2 ^ w), wrap_of_lt hedxlt, Nat.add_comm (8 * i)]

theorem setupPaging_eq (hstart : 4096 ∣ start) (hend : tablesEnd start ≤ 2 ^ 28) (mem : Mem) :
    setupPaging start mem = leStores 4 mem (tableStores start 128 [0] [0]) := by
  have h3 : p3LoTable start ||| PRESENT_WRITABLE = p3LoTable start + 3 :=
    or_present ((Nat.dvd_add_right hstart).2 ⟨1, rfl⟩)
  have h2 : p2LoTable start ||| PRESENT_WRITABLE = p2LoTable start + 3 :=
    or_present ((Nat.dvd_add_right hstart).2 ⟨2, rfl⟩)
  have hp2 : (List.range 128).map (mapP2Lo 32 start) = (List.range 128).map fun i =>
      (p2LoTable start + 8 * i, p1LoTables start + 4096 * i + 3) :=
    List.map_congr_left fun i hi => mapP2Lo_eq (Nat.le_refl _) hend (List.mem_range.1 hi)
  have hp1 : (List.range (512 * 128)).map (mapP1Lo 32 start) = (List.range (512 * 128)).map fun i =>
      (p1LoTables start + 8 * i, 4096 * i + 3) :=
    List.map_congr_left fun i hi => mapP1Lo_eq (Nat.le_refl _) hend (List.mem_range.1 hi)
  rw [setupPaging, tableStores, ← hp2, ← hp1, leStores, List.foldl_append, List.foldl_append,
    List.foldl_append, List.foldl_map, List.foldl_map, h3, h2]
  rfl

theorem translate_eq (h : Tables mem start 128 is js) (hstart : 4096 ∣ start)
    (hend : start < 2 ^ 51) (v : Nat) : translate mem (p4Table start) v =
      if Canonical v ∧ v / 2 ^ 39 % 2 ^ 9 ∈ is ∧ v / 2 ^ 30 % 2 ^ 9 ∈ js ∧ v % 2 ^ 30 < 2 ^ 28 then
        some (v % 2 ^ 30)
      else none := by
  rw [translate, h.walk (by decide) hstart hend]
  by_cases hv : Canonical v
  · rw [if_pos hv]
    exact if_congr (and_iff_right hv).symm rfl rfl
  · rw [if_neg hv, if_neg fun hand => hv hand.1]

/-- The tables of `setup_paging` map low memory to itself. -/
theorem translate_low (h : Tables mem start 128 [0] [0]) (hstart : 4096 ∣ start)
    (hend : start < 2 ^ 51) (hv : v < 2 ^ 28) : translate mem (p4Table start) v = some v := by
  have h4 : v / 2 ^ 39 % 2 ^ 9 = 0 := by omega
  have h3 : v / 2 ^ 30 % 2 ^ 9 = 0 := by omega
  rw [translate_eq h hstart hend, if_pos, Nat.mod_eq_of_lt (by omega)]
  rw [h4, h3]
  exact ⟨.inl (by omega), List.mem_singleton_self 0, List.mem_singleton_self 0, by omega⟩

/-- Stores to low memory outside the tables that are in use. -/
theorem foldlM_movAbs (h : Tables mem start 128 [0] [0]) (hstart : 4096 ∣ start)
    (hend : start < 2 ^ 51)
    (hl : ∀ x ∈ l, x.1 < 2 ^ 28 ∧ (x.1 + 8 ≤ start ∨ tablesEnd start ≤ x.1)) :
    l.foldlM (movAbs (p4Table start)) mem = some (leStores 8 mem l) := by
  induction l generalizing mem with
  | nil => rfl
  | cons x l ih =>
    rw [List.forall_mem_cons] at hl
    obtain ⟨⟨hlow, hapart⟩, hl⟩ := hl
    have hstore : movAbs (p4Table start) mem x = some (leStore mem x.1 8 x.2) := by
      rw [movAbs, translate_low h hstart hend hlow]
      rfl
    have hnext : Tables (leStore mem x.1 8 x.2) start 128 [0] [0] := by
      refine h.congr fun a hle hlt => leStore_other ?_ x.2
      rw [tablesEnd] at hapart
      omega
    rw [List.foldlM_cons, hstore, Option.bind_eq_bind, Option.bind_some, ih hnext hl, leStores,
      leStores, List.foldl_cons]

theorem setupPaging64_eq (h : Tables mem start' 128 [0] [0]) (hstart' : 4096 ∣ start')
    (hend' : start' < 2 ^ 51) (hstart : 4096 ∣ start) (hend : tablesEnd start ≤ 2 ^ 28)
    (hapart : tablesEnd start ≤ start' ∨ tablesEnd start' ≤ start) :
    setupPaging64 start (p4Table start') mem =
      some (leStores 8 mem (tableStores start 128 [0, 511] [0, 510])) := by
  have h3 : p3LoTable start ||| PRESENT_WRITABLE = p3LoTable start + 3 :=
    or_present ((Nat.dvd_add_right hstart).2 ⟨1, rfl⟩)
  have h2 : p2LoTable start ||| PRESENT_WRITABLE = p2LoTable start + 3 :=
    or_present ((Nat.dvd_add_right hstart).2 ⟨2, rfl⟩)
  have hp2 : (List.range 128).map (mapP2Lo 64 start) = (List.range 128).map fun i =>
      (p2LoTable start + 8 * i, p1LoTables start + 4096 * i + 3) :=
    List.map_congr_left fun i hi => mapP2Lo_eq (by decide) hend (List.mem_range.1 hi)
  have hp1 : (List.range (512 * 128)).map (mapP1Lo 64 start) = (List.range (512 * 128)).map fun i =>
      (p1LoTables start + 8 * i, 4096 * i + 3) :=
    List.map_congr_left fun i hi => mapP1Lo_eq (by decide) hend (List.mem_range.1 hi)
  have hlow : ∀ x ∈ tableStores start 128 [0, 511] [0, 510],
      x.1 < 2 ^ 28 ∧ (x.1 + 8 ≤ start' ∨ tablesEnd start' ≤ x.1) := by
    intro x hx
    obtain ⟨-, n, hn, rfl⟩ := tableStores_slot (by decide) (by decide) (by decide) hx
    rw [tablesEnd] at hend hapart
    dsimp only
    omega
  rw [← foldlM_movAbs h hstart' hend' hlow, setupPaging64, tableStores, ← hp2, ← hp1,
    h3, h2]
  simp only [List.foldlM_append, List.foldlM_map, List.foldlM_cons, List.foldlM_nil, bind_assoc,
    pure_bind]
  rfl

end setup

/-- `start` calls `setup_paging`, and `start64` then calls `setup_paging64`. Each of them has tables
of its own. -/
def bootPaging (start32 start64 : Nat) (mem : Mem) : Option Mem :=
  setupPaging64 start64 (p4Table start32) (setupPaging start32 mem)

theorem Tables.mapsAt (h : Tables mem start 128 [0, 511] [0, 510]) (hstart : 4096 ∣ start)
    (hend : start < 2 ^ 51) : MapsAt (translate mem (p4Table start))
      [0, 0x7F80000000, 0xFFFFFF8000000000, 0xFFFFFFFF80000000] := by
  intro v p
  rw [translate_eq h hstart hend, Option.ite_none_right_eq_some, Option.some_inj, Canonical]
  simp only [List.mem_cons, List.not_mem_nil, or_false, exists_eq_or_imp, exists_eq_left]
  constructor
  · rintro ⟨⟨hv, h4 | h4, h3 | h3, hlt⟩, rfl⟩
    · omega
    · omega
    · omega
    · omega
  · rintro ⟨hp, rfl | rfl | rfl | rfl⟩
    · omega
    · omega
    · omega
    · omega

theorem tables_setupPaging (hstart : 4096 ∣ start) (hend : tablesEnd start ≤ 2 ^ 28)
    (hzero : ∀ a, start ≤ a → a < tablesEnd start → mem a = 0#8) :
    Tables (setupPaging start mem) start 128 [0] [0] := by
  rw [setupPaging_eq hstart hend]
  rw [tablesEnd] at hend
  exact tables_stores (by decide) (by decide) (by decide) (.inl rfl)
    (Nat.dvd_trans (by decide) hstart) (by omega) hzero

theorem setupPaging_other (hstart : 4096 ∣ start) (hend : tablesEnd start ≤ 2 ^ 28)
    (ha : a < start ∨ tablesEnd start ≤ a) : setupPaging start mem a = mem a := by
  rw [setupPaging_eq hstart hend]
  refine leStores_other fun x hx => ?_
  obtain ⟨-, n, hn, rfl⟩ := tableStores_slot (by decide) (by decide) (by decide) hx
  rw [tablesEnd] at ha
  dsimp only
  omega

/-- Both halves of `.bss.boot` are zero-filled, below 256 MiB and apart. -/
theorem bootPaging_mapsAt (h32 : 4096 ∣ start32) (h64 : 4096 ∣ start64)
    (hend32 : tablesEnd start32 ≤ 2 ^ 28) (hend64 : tablesEnd start64 ≤ 2 ^ 28)
    (hapart : tablesEnd start64 ≤ start32 ∨ tablesEnd start32 ≤ start64)
    (hzero32 : ∀ a, start32 ≤ a → a < tablesEnd start32 → mem a = 0#8)
    (hzero64 : ∀ a, start64 ≤ a → a < tablesEnd start64 → mem a = 0#8) :
    ∃ mem', bootPaging start32 start64 mem = some mem' ∧
      MapsAt (translate mem' (p4Table start64))
        [0, 0x7F80000000, 0xFFFFFF8000000000, 0xFFFFFFFF80000000] ∧
      (∀ kernelEnd v, v < 2 ^ 28 ∨ 0xFFFFFFFF80000000 ≤ v ∧ v < 0xFFFFFFFF80000000 + 2 ^ 28 →
        translate mem' (p4Table start64) v = some ((Arch.amd64 kernelEnd).phys v)) ∧
      ∀ a, (a < start32 ∨ tablesEnd start32 ≤ a) → (a < start64 ∨ tablesEnd start64 ≤ a) →
        mem' a = mem a := by
  have htables32 := tables_setupPaging h32 hend32 hzero32
  have hzero : ∀ a, start64 ≤ a → a < start64 + 512 * 8 * (3 + 128) →
      setupPaging start32 mem a = 0#8 := by
    intro a hle hlt
    rw [← hzero64 a hle hlt]
    refine setupPaging_other h32 hend32 ?_
    rw [tablesEnd] at hapart ⊢
    rw [tablesEnd] at hapart
    omega
  have hboot : bootPaging start32 start64 mem = some (leStores 8 (setupPaging start32 mem)
      (tableStores start64 128 [0, 511] [0, 510])) :=
    setupPaging64_eq htables32 h32 (by rw [tablesEnd] at hend32; omega) h64 hend64 hapart
  have hlow64 : start64 < 2 ^ 31 := by
    rw [tablesEnd] at hend64
    omega
  have htables64 : Tables (leStores 8 (setupPaging start32 mem)
      (tableStores start64 128 [0, 511] [0, 510])) start64 128 [0, 511] [0, 510] :=
    tables_stores (by decide) (by decide) (by decide) (.inr rfl)
      (Nat.dvd_trans (by decide) h64) hlow64 hzero
  have hmaps := htables64.mapsAt h64 (by omega)
  refine ⟨_, hboot, hmaps, fun kernelEnd v hv => ?_, fun a ha32 ha64 => ?_⟩
  · have hbig : 2 ^ 28 ≤ 0xFFFFFFFF80000000 := by decide
    exact hmaps.phys (a := Arch.amd64 kernelEnd) (by decide)
      (show 0xFFFFFFFF80000000 ∈ _ by decide) hbig hv
  · have hkept : setupPaging start32 mem a = mem a := setupPaging_other h32 hend32 ha32
    rw [← hkept]
    refine leStores_other fun x hx => ?_
    obtain ⟨-, n, hn, rfl⟩ := tableStores_slot (by decide) (by decide) (by decide) hx
    rw [tablesEnd] at ha64
    dsimp only
    omega

theorem bootPaging_mapsAt_zeros : ∃ mem', bootPaging 0x103000 0x186000 (fun _ => 0#8) = some mem' ∧
      MapsAt (translate mem' (p4Table 0x186000))
        [0, 0x7F80000000, 0xFFFFFF8000000000, 0xFFFFFFFF80000000] ∧
      (∀ kernelEnd v, v < 2 ^ 28 ∨ 0xFFFFFFFF80000000 ≤ v ∧ v < 0xFFFFFFFF80000000 + 2 ^ 28 →
        translate mem' (p4Table 0x186000) v = some ((Arch.amd64 kernelEnd).phys v)) ∧
      ∀ a, (a < 0x103000 ∨ tablesEnd 0x103000 ≤ a) → (a < 0x186000 ∨ tablesEnd 0x186000 ≤ a) →
        mem' a = (fun _ => 0#8 : Mem) a :=
  bootPaging_mapsAt (by decide) (by decide) (by decide) (by decide) (by decide)
    (fun _ _ _ => rfl) fun _ _ _ => rfl

end Amd64

namespace I386

def p2Table (start : Nat) : Nat := start

def p1Table (start : Nat) : Nat := start + 1024 * 4

def tablesEnd (start : Nat) : Nat := start + 1024 * 4 * (1 + 128)

/-- The two stores of a round of `map_p2_loop`. -/
def mapP2 (start ecx : Nat) : List (Nat × Nat) :=
  let eax := wrap 32 (1024 * 4 * ecx)
  let eax := wrap 32 ((eax ||| PRESENT_WRITABLE) + p1Table start)
  let edx := wrap 32 (wrap 32 (4 * ecx) + p2Table start)
  [(edx, eax), (wrap 32 (edx + 768 * 4), eax)]

def mapP1 (start ecx : Nat) : Nat × Nat :=
  let eax := wrap 32 (4096 * ecx) ||| PRESENT_WRITABLE
  let edx := wrap 32 (wrap 32 (4 * ecx) + p1Table start)
  (edx, eax)

def setupPaging (start : Nat) (mem : Mem) : Mem :=
  let mem := (List.range 128).foldl (fun mem ecx => leStores 4 mem (mapP2 start ecx)) mem
  (List.range (512 * 128)).foldl
    (fun mem ecx => leStore mem (mapP1 start ecx).1 4 (mapP1 start ecx).2) mem

/-- How the CPU reads an entry of 4 bytes. Entries for pages of 4 MiB have bit 7 set. -/
def entry (mem : Mem) (level table i : Nat) : Entry :=
  let e := leNat mem (table + 4 * i) 4
  if e % 2 = 0 then .absent
  else if level = 1 ∧ e / 2 ^ 7 % 2 = 1 then .page (e / 2 ^ 22 * 2 ^ 22)
  else .table (e / 2 ^ 12 * 2 ^ 12)

def translate (mem : Mem) (cr3 v : Nat) : Option Nat :=
  if v < 2 ^ 32 then walk 12 10 (entry mem) 2 cr3 v else none

/-- The `n`-th entry of the tables, where `k` tables are entered twice in the P2 table, and the
first `m` of them are filled. -/
def slot (start k m n : Nat) : Nat :=
  if n < 1024 then if n % 768 < k then p1Table start + 4096 * (n % 768) + 3 else 0
  else if n - 1024 < 1024 * m then 4096 * (n - 1024) + 3 else 0

def Tables (mem : Mem) (start k m : Nat) : Prop :=
  ∀ n < 1024 * (1 + k), leNat mem (start + 4 * n) 4 = slot start k m n

def tableStores (start k m : Nat) : List (Nat × Nat) :=
  (List.range k).flatMap (fun i =>
      [(p2Table start + 4 * i, p1Table start + 4096 * i + 3),
        (p2Table start + 4 * (i + 768), p1Table start + 4096 * i + 3)]) ++
    (List.range (1024 * m)).map fun i => (p1Table start + 4 * i, 4096 * i + 3)

variable {mem : Mem} {start k m : Nat}

theorem entry_absent (h : leNat mem (table + 4 * i) 4 = 0) (level : Nat) :
    entry mem level table i = .absent := by
  rw [entry, h]
  rfl

theorem entry_present (h : leNat mem (table + 4 * i) 4 = base + 3) (hbase : 4096 ∣ base)
    (level : Nat) : entry mem level table i = .table base := by
  have hodd : ¬ (base + 3) % 2 = 0 := by omega
  have hsmall : ¬ (level = 1 ∧ (base + 3) / 2 ^ 7 % 2 = 1) := by omega
  have hbits : (base + 3) / 2 ^ 12 * 2 ^ 12 = base := by omega
  rw [entry, h, if_neg hodd, if_neg hsmall, hbits]

namespace Tables

theorem p2 (h : Tables mem start k m) (hi : i < 1024) :
    leNat mem (p2Table start + 4 * i) 4 =
      if i % 768 < k then p1Table start + 4096 * (i % 768) + 3 else 0 := by
  have hload := h i (by omega)
  rwa [slot, if_pos hi] at hload

theorem p1 (h : Tables mem start k m) (hi : i < 1024 * k) :
    leNat mem (p1Table start + 4 * i) 4 = if i < 1024 * m then 4096 * i + 3 else 0 := by
  have hload := h (1024 + i) (by omega)
  have haddr : start + 4 * (1024 + i) = p1Table start + 4 * i := by
    rw [p1Table]
    omega
  rwa [haddr, slot, if_neg (by omega), Nat.add_sub_cancel_left] at hload

variable (h : Tables mem start k m)

include h

theorem linear_p1 (hj : j < k) : Linear 12 10 (entry mem) 1 (p1Table start + 4096 * j)
    (2 ^ 22 * j) (if j < m then 2 ^ 22 else 0) := by
  have hload : ∀ i < 1024, leNat mem (p1Table start + 4096 * j + 4 * i) 4 =
      if j < m then 2 ^ 22 * j + 2 ^ 12 * i + 3 else 0 := by
    intro i hi
    have haddr : p1Table start + 4 * (1024 * j + i) = p1Table start + 4096 * j + 4 * i := by omega
    rw [← haddr, h.p1 (by omega)]
    split_ifs <;> omega
  split_ifs at hload ⊢ with hm
  · refine Linear.succ (k := 1024) (fun i hi => .inr ⟨_, ?_, linear_page 12 10 _ _⟩)
      fun i hle hlt => by omega
    exact entry_present (hload i hi) (by omega) 0
  · exact Linear.succ (k := 0) (fun i hi => absurd hi (Nat.not_lt_zero i))
      fun i _ hlt => .inl ⟨rfl, entry_absent (hload i hlt) 0⟩

theorem walk (hstart : 4096 ∣ start) (hm : m ≤ k) (v : Nat) :
    walk 12 10 (entry mem) 2 (p2Table start) v =
      if v / 2 ^ 22 % 2 ^ 10 % 768 < m then
        some (2 ^ 22 * (v / 2 ^ 22 % 2 ^ 10 % 768) + v % 2 ^ 22)
      else none := by
  have hload := h.p2 (i := v / 2 ^ (12 + 10 * 1) % 2 ^ 10) (Nat.mod_lt _ (by decide))
  rw [Lib.walk]
  split_ifs at hload with hk
  · rw [entry_present hload (by rw [p1Table]; omega)]
    dsimp only
    rw [h.linear_p1 hk]
    by_cases hlt : v / 2 ^ 22 % 2 ^ 10 % 768 < m
    · rw [if_pos hlt, if_pos (Nat.mod_lt v (by decide)), if_pos hlt]
    · rw [if_neg hlt, if_neg (Nat.not_lt_zero _), if_neg hlt]
  · rw [entry_absent hload, if_neg (by omega)]

end Tables

theorem mem_tableStores : x ∈ tableStores start k m ↔
    (∃ i < k, x = (p2Table start + 4 * i, p1Table start + 4096 * i + 3) ∨
      x = (p2Table start + 4 * (i + 768), p1Table start + 4096 * i + 3)) ∨
    ∃ i < 1024 * m, (p1Table start + 4 * i, 4096 * i + 3) = x := by
  simp only [tableStores, List.mem_append, List.mem_flatMap, List.mem_map, List.mem_range,
    List.mem_cons, List.not_mem_nil, or_false]

theorem slot_mem (hne : slot start k m n ≠ 0) :
    (start + 4 * n, slot start k m n) ∈ tableStores start k m := by
  rw [mem_tableStores]
  rw [slot] at hne ⊢
  split_ifs at hne ⊢ with h2 hi hlt
  · refine .inl ⟨n % 768, hi, ?_⟩
    rw [p2Table, Prod.mk.injEq, Prod.mk.injEq]
    omega
  · exact absurd rfl hne
  · refine .inr ⟨n - 1024, hlt, ?_⟩
    rw [p1Table, Prod.mk.injEq]
    exact ⟨by omega, rfl⟩
  · exact absurd rfl hne

theorem tableStores_slot (hk : k ≤ 256) (hm : m ≤ k) (hx : x ∈ tableStores start k m) :
    x.2 ≠ 0 ∧ ∃ n < 1024 * (1 + k), x = (start + 4 * n, slot start k m n) := by
  rcases mem_tableStores.1 hx with ⟨i, hi, rfl | rfl⟩ | ⟨i, hi, rfl⟩
  · refine ⟨Nat.succ_ne_zero _, i, by omega, ?_⟩
    rw [slot, if_pos (by omega), Nat.mod_eq_of_lt (by omega), if_pos hi]
    rfl
  · refine ⟨Nat.succ_ne_zero _, i + 768, by omega, ?_⟩
    rw [slot, if_pos (by omega), Nat.add_mod_right, Nat.mod_eq_of_lt (by omega), if_pos hi]
    rfl
  · refine ⟨Nat.succ_ne_zero _, 1024 + i, by omega, ?_⟩
    rw [slot, if_neg (by omega), Nat.add_sub_cancel_left, if_pos hi, p1Table]
    congr 1
    omega

theorem tables_stores (hk : k ≤ 256) (hm : m ≤ k) (hstart : 4 ∣ start) (hend : start < 2 ^ 31)
    (hzero : ∀ a, start ≤ a → a < start + 1024 * 4 * (1 + k) → mem a = 0#8) :
    Tables (leStores 4 mem (tableStores start k m)) start k m := by
  intro n hn
  have hslots : ∀ x ∈ tableStores start k m, 4 ∣ x.1 := by
    intro x hx
    obtain ⟨-, i, -, rfl⟩ := tableStores_slot hk hm hx
    exact (Nat.dvd_add_right hstart).2 ⟨i, rfl⟩
  have hzero' : ∀ a, start + 4 * n ≤ a → a < start + 4 * n + 4 → mem a = 0#8 :=
    fun a hle hlt => hzero a (by omega) (by omega)
  have hsame : ∀ x ∈ tableStores start k m, x.1 = start + 4 * n → x.2 = slot start k m n := by
    intro x hx he
    obtain ⟨-, i, -, rfl⟩ := tableStores_slot hk hm hx
    obtain rfl : i = n := by
      dsimp only at he
      omega
    rfl
  by_cases hne : slot start k m n = 0
  · rw [hne]
    refine leNat_unstored (Nat.le_refl 4) hslots hzero' ((Nat.dvd_add_right hstart).2 ⟨n, rfl⟩)
      fun x hx he => ?_
    exact (tableStores_slot hk hm hx).1 ((hsame x hx he).trans hne)
  · have hlt : slot start k m n < 2 ^ 32 := by
      rw [slot, p1Table]
      split_ifs <;> omega
    exact leNat_stored (Nat.le_refl 4) hslots hzero' (slot_mem hne) hsame hlt

theorem mapP2_eq (hend : tablesEnd start ≤ 2 ^ 28) (hi : i < 128) :
    mapP2 start i = [(p2Table start + 4 * i, p1Table start + 4096 * i + 3),
      (p2Table start + 4 * (i + 768), p1Table start + 4096 * i + 3)] := by
  rw [tablesEnd] at hend
  have heax : 1024 * 4 * i + 3 + p1Table start = p1Table start + 4096 * i + 3 := by omega
  have heaxlt : p1Table start + 4096 * i + 3 < 2 ^ 32 := by
    rw [p1Table]
    omega
  have hedxlt : 4 * i + p2Table start + 768 * 4 < 2 ^ 32 := by
    rw [p2Table]
    omega
  have hhigh : 4 * i + p2Table start + 768 * 4 = p2Table start + 4 * (i + 768) := by omega
  rw [mapP2, wrap_of_lt (by omega : 1024 * 4 * i < 2 ^ 32), or_present ⟨i, rfl⟩, heax,
    wrap_of_lt heaxlt, wrap_of_lt (by omega : 4 * i < 2 ^ 32),
    wrap_of_lt (by omega : 4 * i + p2Table start < 2 ^ 32), wrap_of_lt hedxlt, hhigh,
    Nat.add_comm (4 * i)]

theorem mapP1_eq (hend : tablesEnd start ≤ 2 ^ 28) (hi : i < 512 * 128) :
    mapP1 start i = (p1Table start + 4 * i, 4096 * i + 3) := by
  rw [tablesEnd] at hend
  have hedxlt : 4 * i + p1Table start < 2 ^ 32 := by
    rw [p1Table]
    omega
  rw [mapP1, wrap_of_lt (by omega : 4096 * i < 2 ^ 32), or_present ⟨i, rfl⟩,
    wrap_of_lt (by omega : 4 * i < 2 ^ 32), wrap_of_lt hedxlt, Nat.add_comm (4 * i)]

/-- The second loop fills half of the tables that the first one enters. -/
theorem setupPaging_eq (hend : tablesEnd start ≤ 2 ^ 28) (mem : Mem) :
    setupPaging start mem = leStores 4 mem (tableStores start 128 64) := by
  have hp2 : (List.range 128).flatMap (mapP2 start) = (List.range 128).flatMap fun i =>
      [(p2Table start + 4 * i, p1Table start + 4096 * i + 3),
        (p2Table start + 4 * (i + 768), p1Table start + 4096 * i + 3)] :=
    List.flatMap_congr fun i hi => mapP2_eq hend (List.mem_range.1 hi)
  have hcount : 1024 * 64 = 512 * 128 := rfl
  have hp1 : (List.range (512 * 128)).map (mapP1 start) = (List.range (512 * 128)).map fun i =>
      (p1Table start + 4 * i, 4096 * i + 3) :=
    List.map_congr_left fun i hi => mapP1_eq hend (List.mem_range.1 hi)
  rw [setupPaging, foldl_leStores fun _ _ => rfl, tableStores, hcount, ← hp2, ← hp1, leStores,
    leStores, List.foldl_append, List.foldl_map]

theorem Tables.mapsAt (h : Tables mem start 128 64) (hstart : 4096 ∣ start) :
    MapsAt (translate mem (p2Table start)) [0, 0xC0000000] := by
  intro v p
  simp only [List.mem_cons, List.not_mem_nil, or_false, exists_eq_or_imp, exists_eq_left]
  rw [translate, h.walk hstart (by decide)]
  constructor
  · intro hsome
    split_ifs at hsome with hv hlt
    obtain rfl := Option.some_inj.1 hsome
    omega
  · rintro ⟨hp, rfl | rfl⟩
    · rw [if_pos (by omega), if_pos (by omega), Option.some_inj]
      omega
    · rw [if_pos (by omega), if_pos (by omega), Option.some_inj]
      omega

/-- Although there are tables for twice as much, 256 MiB are mapped. -/
theorem setupPaging_mapsAt (hstart : 4096 ∣ start) (hend : tablesEnd start ≤ 2 ^ 28)
    (hzero : ∀ a, start ≤ a → a < tablesEnd start → mem a = 0#8) :
    MapsAt (translate (setupPaging start mem) (p2Table start)) [0, 0xC0000000] ∧
      (∀ kernelEnd v, v < 2 ^ 28 ∨ 0xC0000000 ≤ v ∧ v < 0xC0000000 + 2 ^ 28 →
        translate (setupPaging start mem) (p2Table start) v =
          some ((Arch.i386 kernelEnd).phys v)) ∧
      ∀ a, (a < start ∨ tablesEnd start ≤ a) → setupPaging start mem a = mem a := by
  have hlow : start < 2 ^ 31 := by
    rw [tablesEnd] at hend
    omega
  have htables : Tables (leStores 4 mem (tableStores start 128 64)) start 128 64 :=
    tables_stores (by decide) (by decide) (Nat.dvd_trans (by decide) hstart) hlow hzero
  rw [setupPaging_eq hend]
  have hmaps := htables.mapsAt hstart
  refine ⟨hmaps, fun kernelEnd v hv => ?_, fun a ha => leStores_other fun x hx => ?_⟩
  · have hbig : 2 ^ 28 ≤ 0xC0000000 := by decide
    exact hmaps.phys (a := Arch.i386 kernelEnd) (by decide) (show 0xC0000000 ∈ _ by decide) hbig hv
  · obtain ⟨-, n, hn, rfl⟩ := tableStores_slot (by decide) (by decide) hx
    rw [tablesEnd] at ha
    dsimp only
    omega

theorem setupPaging_mapsAt_zeros :
    MapsAt (translate (setupPaging 0x103000 fun _ => 0#8) (p2Table 0x103000)) [0, 0xC0000000] ∧
      (∀ kernelEnd v, v < 2 ^ 28 ∨ 0xC0000000 ≤ v ∧ v < 0xC0000000 + 2 ^ 28 →
        translate (setupPaging 0x103000 fun _ => 0#8) (p2Table 0x103000) v =
          some ((Arch.i386 kernelEnd).phys v)) ∧
      ∀ a, (a < 0x103000 ∨ tablesEnd 0x103000 ≤ a) →
        setupPaging 0x103000 (fun _ => 0#8) a = (fun _ => 0#8 : Mem) a :=
  setupPaging_mapsAt (by decide) (by decide) fun _ _ _ => rfl

end I386
end Tupai
