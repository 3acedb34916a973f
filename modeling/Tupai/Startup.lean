import Tupai.Booting
import Tupai.Kmem

namespace Tupai
open Lib
set_option autoImplicit true

section heap

variable {w : Nat} {pool : Pool} {s s' : HeapState}

/-- The kernel writes nothing below its heap when it uses it. -/
theorem KmemStep.below (hs : KmemStep w pool s s') (h : HeapSound w pool s)
    (hp : Pool.Packed w pool) (hx : x < pool.body) : s'.mem x = s.mem x := by
  have hmap := hp.map
  cases hs with
  | alloc _ n _ ha => exact poolAlloc_below hp (kmemAlloc_some ha).1 (by omega)
  | dealloc _ a ha hfree =>
    rw [kmemDealloc, h.aligned a ha] at hfree
    exact poolDealloc_below hp (h.inside hp ha).1 hfree (by omega)
  | store _ a i b ha hi =>
    have hin := h.inside hp ha
    have hfits := hp.mapFits
    rw [wrap_of_lt (by omega)]
    exact Mem.store_other _ _ (by omega)

end heap

section images

variable {w : Nat} {im : Image} {mem mem' : Mem} {k : Kernel Devices}

theorem Image.Ok.congr (h : im.Ok w fuel mem)
    (hmem : ∀ x, im.start ≤ x → x < im.stop → mem' x = mem x) : im.Ok w fuel mem' := by
  have hle := h.archive.le
  obtain ⟨n, hn⟩ := Nat.exists_eq_add_of_le (show im.start ≤ im.stop by omega)
  refine { h with archive := ?_ }
  rw [hn]
  exact h.archive.moved hn fun i hi => hmem _ (Nat.le_add_right ..) (by omega)

/-- The files are read from the archive alone, wherever else memory is written. -/
theorem ShowsImage.congr (h : ShowsImage w im k)
    (hmem : ∀ x, im.start ≤ x → x < im.stop → mem x = k.mem x) :
    ShowsImage w im { k with mem := mem } := by
  refine ⟨⟨h.mounted.valid, h.mounted.typed, h.mounted.implicit, ?_⟩, fun file hfile => ?_⟩
  · intro e he hflag q hq k' hstill hopen
    refine h.mounted.contents e he hflag q hq k' ?_ hopen
    exact { hstill with mem := fun x hlo hhi => (hstill.mem x hlo hhi).trans (hmem x hlo hhi) }
  · exact (h.files file hfile).still ⟨rfl, rfl, rfl, hmem⟩

end images

section modules

variable {a : Arch} {mem : Mem} {s : Boot} {t : MbTag}

section boot

variable (ha : a.IsX86) (hl : Loaded a kernelStart header tags s)

include ha hl

end boot

end modules

end Tupai
