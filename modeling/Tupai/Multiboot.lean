import Tupai.Arch
import Tupai.Lib.Copies
import Tupai.Str

namespace Tupai
set_option autoImplicit true

namespace Arch

/-- The physical address behind a virtual one. The kernel's half of the address space is mapped
from physical 0 on, and low memory is mapped to itself. -/
def phys (a : Arch) (addr : Nat) : Nat := if a.offset ≤ addr then addr - a.offset else addr

def load8 (a : Arch) (mem : Mem) (addr : Nat) : Byte := mem (a.phys (wrap a.width addr))

def store8 (a : Arch) (mem : Mem) (addr : Nat) (b : Byte) : Mem :=
  mem.store (a.phys (wrap a.width addr)) b

/-- A `uint32_t` of a packed structure, the lowest byte first. -/
def load32 (a : Arch) (mem : Mem) (addr : Nat) : Nat :=
  (a.load8 mem addr).toNat + 2 ^ 8 * (a.load8 mem (addr + 1)).toNat +
    2 ^ 16 * (a.load8 mem (addr + 2)).toNat + 2 ^ 24 * (a.load8 mem (addr + 3)).toNat

def store32 (a : Arch) (mem : Mem) (addr value : Nat) : Mem :=
  let mem := a.store8 mem addr (BitVec.ofNat 8 value)
  let mem := a.store8 mem (addr + 1) (BitVec.ofNat 8 (value / 2 ^ 8))
  let mem := a.store8 mem (addr + 2) (BitVec.ofNat 8 (value / 2 ^ 16))
  a.store8 mem (addr + 3) (BitVec.ofNat 8 (value / 2 ^ 24))

def memCopy (a : Arch) (src dest : Nat) : (n : Nat) → (mem : Mem) → Mem
  | 0, mem => mem
  | n + 1, mem =>
    let mem := a.memCopy src dest n mem
    a.store8 mem (dest + n) (a.load8 mem (src + n))

end Arch

def MULTIBOOT_EAX_MAGIC : Nat := 0x36D76289

def MAX_TAGS : Nat := 1024

def INITRD_MAX : Nat := 32

structure MbMeminfo where
  type : Nat
  size : Nat
  lower : Nat
  upper : Nat

/-- An entry of the initrd cache. It is free as long as its size is 0. -/
structure InitrdT where
  start : Nat
  size : Nat
  args : Nat

/-- What the multiboot parser reads and writes: physical memory, and the static variables of the
kernel, which are not part of it. -/
structure Boot where
  mem : Mem
  kernelEndOffset : Nat
  mbMeminfo : MbMeminfo
  initrds : List InitrdT

def initrdAdd (start size args : Nat) : (initrds : List InitrdT) → List InitrdT
  | [] => []
  | initrd :: initrds =>
    if initrd.size = 0 then ⟨start, size, args⟩ :: initrds
    else initrd :: initrdAdd start size args initrds

def INITRD : Chars := [0x69#8, 0x6E#8, 0x69#8, 0x74#8, 0x72#8, 0x64#8]

namespace Boot

def multibootParseMeminfo (a : Arch) (s : Boot) (tag : Nat) : Boot :=
  { s with mbMeminfo := ⟨a.load32 s.mem tag, a.load32 s.mem (tag + 4), a.load32 s.mem (tag + 8),
    a.load32 s.mem (tag + 12)⟩ }

/-- The tag is only printed. -/
def multibootParseBiosdev (s : Boot) (_tag : Nat) : Boot := s

/-- The tag is only printed. -/
def multibootParseBootcmd (s : Boot) (_tag : Nat) : Boot := s

def multibootParseModule (a : Arch) (s : Boot) (tag : Nat) : Boot :=
  let start := a.load32 s.mem (tag + 8)
  let modSize := wrapSub 32 (a.load32 s.mem (tag + 12)) start
  let (naddr, kernelEndOffset) := a.kernelAlloc s.kernelEndOffset modSize
  let mem := a.memCopy start naddr modSize s.mem
  -- Both fields are 32 bits wide, and the first one is read back for the second.
  let mem := a.store32 mem (tag + 8) (wrap 32 (wrapSub a.width naddr a.offset))
  let mem := a.store32 mem (tag + 12) (wrap 32 (a.load32 mem (tag + 8) + modSize))
  let start := a.load32 mem (tag + 8)
  let stop := a.load32 mem (tag + 12)
  let s := { s with mem := mem, kernelEndOffset := kernelEndOffset }
  -- The comparison never looks beyond the seventh byte.
  let args := (List.range 7).map fun i => a.load8 mem (tag + 16 + i)
  if strEqual args INITRD then
    let size := wrap a.width (wrap 32 (wrapSub 32 stop start + 1) + a.offset)
    { s with initrds := initrdAdd (wrap a.width (start + a.offset)) size (tag + 16) s.initrds }
  else s

end Boot

inductive TagParser where
  | meminfo
  | biosdev
  | bootcmd
  | module

/-- The `switch` over the type of a tag. -/
def tagParser (type : Nat) : Option TagParser :=
  match type with
  | 4 => some .meminfo
  | 5 => some .biosdev
  | 1 => some .bootcmd
  | 3 => some .module
  | _ => none

namespace Boot

def callParser (a : Arch) (s : Boot) (tag : Nat) : (parser : Option TagParser) → Boot
  | some .meminfo => s.multibootParseMeminfo a tag
  | some .biosdev => s.multibootParseBiosdev tag
  | some .bootcmd => s.multibootParseBootcmd tag
  | some .module => s.multibootParseModule a tag
  | none => s

/-- The loop of `multiboot_set_header`, with the number of tags that it may still look at. -/
def parseTags (a : Arch) (start totalSize : Nat) : (left : Nat) → (s : Boot) → (ctag : Nat) → Boot
  | 0, s, _ => s
  | left + 1, s, ctag =>
    if wrapSub a.width ctag start < totalSize then
      let s := s.callParser a ctag (tagParser (a.load32 s.mem ctag))
      let next := wrap a.width (ctag + a.load32 s.mem (ctag + 4))
      parseTags a start totalSize left s (alignCeiling a.width next 8)
    else s

def multibootSetHeader (a : Arch) (magic header : Nat) (s : Boot) : Boot :=
  if magic ≠ MULTIBOOT_EAX_MAGIC then s
  else
    let start := wrap a.width (header + a.offset)
    let totalSize := a.load32 s.mem start
    let ctag := alignCeiling a.width (wrap a.width (start + 8)) 8
    parseTags a start totalSize MAX_TAGS s ctag

end Boot

/-- The `uint32_t` at a physical address. -/
def Mem.word (mem : Mem) (p : Nat) : Nat :=
  (mem p).toNat + 2 ^ 8 * (mem (p + 1)).toNat + 2 ^ 16 * (mem (p + 2)).toNat +
    2 ^ 24 * (mem (p + 3)).toNat

theorem Mem.word_lt (mem : Mem) (p : Nat) : mem.word p < 2 ^ 32 := by
  have h₀ := (mem p).isLt
  have h₁ := (mem (p + 1)).isLt
  have h₂ := (mem (p + 2)).isLt
  have h₃ := (mem (p + 3)).isLt
  rw [word]
  omega

theorem Mem.word_eqOn {mem mem' : Mem} (h : Set.EqOn mem mem' (Set.Ico p (p + 4))) :
    mem.word p = mem'.word p := by
  have hb : ∀ i < 4, mem (p + i) = mem' (p + i) := fun i hi => h ⟨by omega, by omega⟩
  have h₀ := hb 0 (by omega)
  rw [word, word, hb 1 (by omega), hb 2 (by omega), hb 3 (by omega)]
  rw [Nat.add_zero] at h₀
  rw [h₀]

theorem Mem.store_eq_update (mem : Mem) (p : Nat) (b : Byte) :
    mem.store p b = Function.update mem p b := by
  funext x
  by_cases hx : x = p
  · subst hx
    rw [Mem.store_same, Function.update_self]
  · rw [Mem.store_other mem b hx, Function.update_of_ne hx]

namespace Arch

variable {a : Arch} {mem : Mem}

theorem phys_high (h : p + a.offset < 2 ^ a.width) : a.phys (wrap a.width (p + a.offset)) = p := by
  rw [wrap_of_lt h, phys, if_pos (Nat.le_add_left ..), Nat.add_sub_cancel]

theorem phys_low (h : p < a.offset) (ha : a.offset < 2 ^ a.width) :
    a.phys (wrap a.width p) = p := by
  rw [wrap_of_lt (by omega), phys, if_neg (by omega)]

theorem load8_high (h : p + a.offset < 2 ^ a.width) : a.load8 mem (p + a.offset) = mem p := by
  rw [load8, phys_high h]

theorem store8_high (h : p + a.offset < 2 ^ a.width) (b : Byte) :
    a.store8 mem (p + a.offset) b = mem.store p b := by
  rw [store8, phys_high h]

theorem load32_high (h : p + i + 4 + a.offset ≤ 2 ^ a.width) :
    a.load32 mem (p + a.offset + i) = mem.word (p + i) := by
  have hb : ∀ j < 4, a.load8 mem (p + a.offset + i + j) = mem (p + i + j) := by
    intro j hj
    have he : p + a.offset + i + j = p + i + j + a.offset := by omega
    rw [he, load8_high (by omega)]
  have h₀ := hb 0 (by omega)
  rw [Nat.add_zero, Nat.add_zero] at h₀
  rw [load32, h₀, hb 1 (by omega), hb 2 (by omega), hb 3 (by omega), Mem.word]

/-- A field of a structure in the kernel's half is written byte by byte. -/
theorem store32_high (h : p + i + 4 + a.offset ≤ 2 ^ a.width) (value : Nat) :
    a.store32 mem (p + a.offset + i) value =
      (((mem.store (p + i) (BitVec.ofNat 8 value)).store (p + i + 1)
        (BitVec.ofNat 8 (value / 2 ^ 8))).store (p + i + 2)
        (BitVec.ofNat 8 (value / 2 ^ 16))).store (p + i + 3)
        (BitVec.ofNat 8 (value / 2 ^ 24)) := by
  have hb : ∀ (mem : Mem) (b : Byte), ∀ j < 4,
      a.store8 mem (p + a.offset + i + j) b = mem.store (p + i + j) b := by
    intro mem b j hj
    have he : p + a.offset + i + j = p + i + j + a.offset := by omega
    rw [he, store8_high (by omega)]
  rw [store32, ← Nat.add_zero (p + a.offset + i), hb _ _ 0 (by omega), Nat.add_zero (p + _ + i),
    hb _ _ 1 (by omega), hb _ _ 2 (by omega), hb _ _ 3 (by omega), Nat.add_zero]

theorem store32_eqOn (h : p + i + 4 + a.offset ≤ 2 ^ a.width) (value : Nat) :
    Set.EqOn (a.store32 mem (p + a.offset + i) value) mem (Set.Ico (p + i) (p + i + 4))ᶜ := by
  intro x hx
  have hne : ∀ j < 4, x ≠ p + i + j := fun j hj he => hx ⟨by omega, by omega⟩
  rw [store32_high h]
  rw [Mem.store_other _ _ (hne 3 (by omega)), Mem.store_other _ _ (hne 2 (by omega)),
    Mem.store_other _ _ (hne 1 (by omega))]
  exact Mem.store_other _ _ (hne 0 (by omega))

theorem store32_word (h : p + i + 4 + a.offset ≤ 2 ^ a.width) (hv : v < 2 ^ 32) :
    (a.store32 mem (p + a.offset + i) v).word (p + i) = v := by
  generalize hq : p + i = q
  have hne (j k : Nat) (hjk : j ≠ k) : q + j ≠ q + k := fun he => hjk (Nat.add_left_cancel he)
  have h₀ (k : Nat) (hk : 0 ≠ k) : q ≠ q + k := hne 0 k hk
  rw [store32_high h, hq, Mem.word, Mem.store_same,
    Mem.store_other _ _ (h₀ 3 (by decide)), Mem.store_other _ _ (h₀ 2 (by decide)),
    Mem.store_other _ _ (h₀ 1 (by decide)), Mem.store_same,
    Mem.store_other _ _ (hne 1 3 (by decide)), Mem.store_other _ _ (hne 1 2 (by decide)),
    Mem.store_same, Mem.store_other _ _ (hne 2 3 (by decide)), Mem.store_same]
  simp only [BitVec.toNat_ofNat]
  omega

/-- From low memory to the kernel's half, `mem_copy` copies physical bytes upwards. -/
theorem memCopy_eq (ha : a.offset < 2 ^ a.width) (hsrc : src + n ≤ a.offset)
    (hdst : dst + n + a.offset ≤ 2 ^ a.width) :
    a.memCopy src (dst + a.offset) n mem = Lib.copyUp src dst n mem := by
  induction n with
  | zero => rfl
  | succ n ih =>
    have he : dst + a.offset + n = dst + n + a.offset := Nat.add_right_comm ..
    rw [memCopy, ih (by omega) (by omega), he, store8_high (by omega), load8,
      phys_low (by omega) ha, Mem.store_eq_update, Lib.copyUp]

end Arch
end Tupai
