import Tupai.Basic
import Tupai.Lib.Transition

namespace Tupai
open Lib
set_option autoImplicit true

def ARCH_PAGE_SIZE : Nat := 4096

/-- The width of an address, the linker's `kernel_end`, and `arch_get_offset()`, by which virtual
addresses are above physical ones. -/
structure Arch where
  width : Nat
  kernelEnd : Nat
  offset : Nat

namespace Arch

def getKernelEnd (a : Arch) (kernelEndOffset : Nat) : Nat :=
  wrap a.width (a.kernelEnd + kernelEndOffset)

/-- The result is the pair of the address and the new `kernel_end_offset`. -/
def kernelAlloc (a : Arch) (kernelEndOffset bytes : Nat) : Nat × Nat :=
  let newEnd := alignCeiling a.width (a.getKernelEnd kernelEndOffset) ARCH_PAGE_SIZE
  let kernelEndOffset := wrap a.width (kernelEndOffset + wrapSub a.width newEnd a.kernelEnd)
  let bytes := alignCeiling a.width bytes ARCH_PAGE_SIZE
  let oldEnd := a.getKernelEnd kernelEndOffset
  (wrap a.width (oldEnd + a.offset), wrap a.width (kernelEndOffset + bytes))

/-- The calls of `arch_kernel_alloc` for a list of sizes, one after the other. -/
def allocs (a : Arch) (sizes : List Nat) : List Nat × Nat := runCalls a.kernelAlloc 0 sizes

end Arch

/-- What `align_ceiling` makes of a size when nothing overflows: 0 takes a page, too. -/
def pageCeiling (n : Nat) : Nat :=
  ARCH_PAGE_SIZE * ((max n 1 + ARCH_PAGE_SIZE - 1) / ARCH_PAGE_SIZE)

def wholePages (n : Nat) : Nat := ARCH_PAGE_SIZE * ((n + ARCH_PAGE_SIZE - 1) / ARCH_PAGE_SIZE)

namespace Arch

/-- From `kernel_end` to the first page boundary. -/
def padding (a : Arch) : Nat := wholePages a.kernelEnd - a.kernelEnd

/-- The physical address that a call returns when nothing overflows. -/
def place (a : Arch) (used : Nat) : Nat :=
  a.kernelEnd + (used + (pageCeiling (a.kernelEnd + used) - a.kernelEnd))

/-- What `kernel_end_offset` becomes when nothing overflows. -/
def usedAfter (a : Arch) (used bytes : Nat) : Nat :=
  used + (pageCeiling (a.kernelEnd + used) - a.kernelEnd) + pageCeiling bytes

/-- No address overflows. -/
def Fits (a : Arch) : (used : Nat) → (sizes : List Nat) → Prop
  | _, [] => True
  | used, n :: sizes =>
    a.kernelEnd + a.usedAfter used n + a.offset < 2 ^ a.width ∧ a.Fits (a.usedAfter used n) sizes

instance (a : Arch) : (used : Nat) → (sizes : List Nat) → Decidable (a.Fits used sizes)
  | _, [] => inferInstanceAs (Decidable True)
  | used, n :: sizes =>
    have := instDecidableFits a (a.usedAfter used n) sizes
    inferInstanceAs (Decidable (_ ∧ _))

/-- Early allocation hands out whole pages and wastes nothing. -/
structure PageExact (a : Arch) (sizes : List Nat) : Prop where
  pages : ∀ r ∈ (a.allocs sizes).1, ∃ p, r = p + a.offset ∧ ARCH_PAGE_SIZE ∣ p ∧ a.kernelEnd ≤ p
  apart : ((a.allocs sizes).1.zip sizes).Pairwise fun x y =>
    x.1 + x.2 ≤ y.1 ∨ y.1 + y.2 ≤ x.1
  below : ∀ x ∈ (a.allocs sizes).1.zip sizes,
    x.1 + x.2 ≤ a.getKernelEnd (a.allocs sizes).2 + a.offset
  consumed : (a.allocs sizes).2 = a.padding + (sizes.map wholePages).sum

end Arch

theorem le_pageCeiling (n : Nat) : n ≤ pageCeiling n := by
  rw [pageCeiling, ARCH_PAGE_SIZE]
  omega

theorem pageCeiling_pos (n : Nat) : 0 < pageCeiling n := by
  rw [pageCeiling, ARCH_PAGE_SIZE]
  omega

theorem pageCeiling_eq (h : 0 < n) : pageCeiling n = wholePages n := by
  rw [pageCeiling, wholePages, Nat.max_eq_left h]

theorem wholePages_le (n : Nat) : wholePages n ≤ pageCeiling n := by
  rw [pageCeiling, wholePages, ARCH_PAGE_SIZE]
  omega

theorem alignCeiling_page (h : n + ARCH_PAGE_SIZE ≤ 2 ^ w) :
    alignCeiling w n ARCH_PAGE_SIZE = pageCeiling n := alignCeiling_exact (by decide) h

namespace Arch

variable {a : Arch}

/-- A call without overflow. The end is aligned against `kernel_end`, and the distance added to
what was already used. -/
theorem kernelAlloc_eq (h : a.kernelEnd + a.usedAfter used n + a.offset < 2 ^ a.width) :
    a.kernelAlloc used n = (a.place used + a.offset, a.usedAfter used n) := by
  have hend := le_pageCeiling (a.kernelEnd + used)
  have hsize := le_pageCeiling n
  have hpage : ARCH_PAGE_SIZE ≤ pageCeiling n ∧
      ARCH_PAGE_SIZE ≤ pageCeiling (a.kernelEnd + used) := by
    rw [pageCeiling, pageCeiling, ARCH_PAGE_SIZE]
    omega
  rw [usedAfter] at h
  have h₁ : a.getKernelEnd used = a.kernelEnd + used := wrap_of_lt (by omega)
  have h₂ : alignCeiling a.width (a.kernelEnd + used) ARCH_PAGE_SIZE =
      pageCeiling (a.kernelEnd + used) := alignCeiling_page (by omega)
  have h₃ : alignCeiling a.width n ARCH_PAGE_SIZE = pageCeiling n := alignCeiling_page (by omega)
  rw [kernelAlloc, h₁, h₂, h₃, wrapSub_of_le (by omega) (by omega)]
  rw [wrap_of_lt (n := used + _) (by omega), getKernelEnd, wrap_of_lt (n := a.kernelEnd + _)
    (by omega), wrap_of_lt (by omega), wrap_of_lt (by omega)]
  rfl

/-- Every call consumes at least the whole pages of its size. -/
theorem allocs_snd_le (h : a.Fits used sizes) :
    used + (sizes.map wholePages).sum ≤ (runCalls a.kernelAlloc used sizes).2 := by
  induction sizes generalizing used with
  | nil => exact Nat.le_refl used
  | cons n sizes ih =>
    have hrest := ih h.2
    have hpages := wholePages_le n
    rw [runCalls, kernelAlloc_eq h.1, List.map_cons, List.sum_cons]
    dsimp only
    rw [usedAfter] at hrest ⊢
    omega

/-- From the second call on, what was used before is consumed once more. -/
theorem usedAfter_twice (h : 0 < used) (n : Nat) : used + wholePages n < a.usedAfter used n := by
  have hend := le_pageCeiling (a.kernelEnd + used)
  have hpages := wholePages_le n
  rw [usedAfter]
  omega

theorem padding_le (a : Arch) : a.padding ≤ pageCeiling (a.kernelEnd + 0) - a.kernelEnd := by
  have hpages := wholePages_le a.kernelEnd
  rw [padding, Nat.add_zero]
  omega

theorem not_pageExact_of_two (h : a.Fits 0 (n :: m :: sizes)) :
    ¬ a.PageExact (n :: m :: sizes) := by
  intro hexact
  have hfirst : 0 < a.usedAfter 0 n := by
    have hpos := pageCeiling_pos n
    rw [usedAfter]
    omega
  have hsecond := usedAfter_twice hfirst m (a := a)
  have hrest := allocs_snd_le h.2.2
  have hpad := a.padding_le
  have hpages := wholePages_le n
  have hconsumed := hexact.consumed
  rw [allocs, runCalls, kernelAlloc_eq h.1] at hconsumed
  dsimp only at hconsumed
  rw [runCalls, kernelAlloc_eq h.2.1] at hconsumed
  simp only [List.map_cons, List.sum_cons] at hconsumed
  have hn : a.usedAfter 0 n = 0 + (pageCeiling (a.kernelEnd + 0) - a.kernelEnd) + pageCeiling n :=
    rfl
  omega

theorem le_place (a : Arch) (used : Nat) : a.kernelEnd + used ≤ a.place used := by
  have hend := le_pageCeiling (a.kernelEnd + used)
  rw [place]
  omega

theorem place_add_le (a : Arch) (used n : Nat) :
    a.place used + n ≤ a.kernelEnd + a.usedAfter used n := by
  have hsize := le_pageCeiling n
  rw [place, usedAfter]
  omega

theorem place_zero (a : Arch) : a.place 0 = pageCeiling a.kernelEnd := by
  have hend := le_pageCeiling a.kernelEnd
  rw [place, Nat.add_zero]
  omega

theorem allocs_one (h : a.Fits 0 [n]) : a.allocs [n] =
    ([pageCeiling a.kernelEnd + a.offset],
      pageCeiling a.kernelEnd - a.kernelEnd + pageCeiling n) := by
  rw [allocs, runCalls, kernelAlloc_eq h.1, place_zero, usedAfter, Nat.add_zero, Nat.zero_add]
  rfl

/-- Rounding up takes a page too many for 0 only. -/
theorem pageCeiling_eq_iff (n : Nat) : pageCeiling n = wholePages n ↔ 0 < n := by
  constructor
  · intro he
    by_contra hn
    obtain rfl : n = 0 := by omega
    exact absurd he (by decide)
  · exact pageCeiling_eq

theorem consumed_one_iff (h : a.Fits 0 [n]) :
    (a.allocs [n]).2 = a.padding + ([n].map wholePages).sum ↔ 0 < n ∧ 0 < a.kernelEnd := by
  have hkernel := wholePages_le a.kernelEnd
  have hend := le_pageCeiling a.kernelEnd
  have hbytes := wholePages_le n
  have hpages : a.kernelEnd ≤ wholePages a.kernelEnd := by
    rw [wholePages, ARCH_PAGE_SIZE]
    omega
  rw [allocs_one h, padding, List.map_singleton, List.sum_singleton, ← pageCeiling_eq_iff,
    ← pageCeiling_eq_iff]
  dsimp only
  omega

theorem pageExact_one_iff (h : a.Fits 0 [n]) : a.PageExact [n] ↔ 0 < n ∧ 0 < a.kernelEnd := by
  constructor
  · exact fun hexact => (consumed_one_iff h).1 hexact.consumed
  · intro hpos
    have hend := le_pageCeiling a.kernelEnd
    have hbytes := le_pageCeiling n
    have hfits := h.1
    rw [usedAfter, Nat.add_zero] at hfits
    refine ⟨?_, ?_, ?_, (consumed_one_iff h).2 hpos⟩
    · rw [allocs_one h]
      intro r hr
      exact ⟨pageCeiling a.kernelEnd, List.mem_singleton.1 hr, Nat.dvd_mul_right .., hend⟩
    · rw [allocs_one h]
      exact List.pairwise_singleton ..
    · rw [allocs_one h]
      intro x hx
      rw [List.mem_singleton.1 hx, getKernelEnd, wrap_of_lt (by omega)]
      dsimp only
      omega

theorem pageExact_none_iff (a : Arch) : a.PageExact [] ↔ ARCH_PAGE_SIZE ∣ a.kernelEnd := by
  have hpadding : 0 = a.padding ↔ ARCH_PAGE_SIZE ∣ a.kernelEnd := by
    rw [padding, wholePages, ARCH_PAGE_SIZE]
    omega
  constructor
  · intro hexact
    exact hpadding.1 hexact.consumed
  · intro hdvd
    exact ⟨fun _ hr => absurd hr List.not_mem_nil, .nil, fun _ hx => absurd hx List.not_mem_nil,
      hpadding.2 hdvd⟩

/-- Early allocation is page exact only as long as it is called at most once. -/
theorem pageExact_iff (h : a.Fits 0 sizes) : a.PageExact sizes ↔
    (sizes = [] ∧ ARCH_PAGE_SIZE ∣ a.kernelEnd) ∨
      ∃ n, sizes = [n] ∧ 0 < n ∧ 0 < a.kernelEnd := by
  match sizes with
  | [] => simp [pageExact_none_iff]
  | [n] => simp [pageExact_one_iff h]
  | n :: m :: sizes => simp [not_pageExact_of_two h]

def amd64 (kernelEnd : Nat) : Arch := ⟨64, kernelEnd, 0xFFFFFFFF80000000⟩

def i386 (kernelEnd : Nat) : Arch := ⟨32, kernelEnd, 0xC0000000⟩

theorem pageExact_amd64 : (amd64 0x1234F0).PageExact [5000] :=
  (pageExact_iff (by decide)).2 (.inr ⟨5000, rfl, by decide, by decide⟩)

/-- Two pages are asked for one by one, and three are consumed. -/
theorem not_pageExact_amd64 : (amd64 0x100000).Fits 0 [4096, 4096] ∧
    ((amd64 0x100000).allocs [4096, 4096]).2 = 12288 ∧
    ¬ (amd64 0x100000).PageExact [4096, 4096] :=
  ⟨by decide, by decide, not_pageExact_of_two (by decide)⟩

end Arch
end Tupai
