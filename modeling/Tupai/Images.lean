import Mathlib.Order.Interval.Finset.Nat
import Tupai.Lib.Chase
import Tupai.Initrd
import Tupai.Ustar

namespace Tupai
open Lib
set_option autoImplicit true

/-- The address that `tar_next` steps to. -/
def tarTarget (w : Nat) (mem : Mem) (header : Nat) : Nat :=
  wrap w (header + alignCeiling w (wrap w (512 + tarSize w mem header)) 512)

def octalReads (w : Nat) (mem : Mem) : (room field : Nat) → List Nat
  | 0, _ => []
  | room + 1, field =>
    field :: if mem field = 0#8 then [] else octalReads w mem room (wrap w (field + 1))

/-- The addresses that `tar_next` reads: the size up to its end, and the start of the next name. -/
def tarNextReads (w : Nat) (mem : Mem) (header : Nat) : List Nat :=
  octalReads w mem 12 (wrap w (header + TAR_SIZE)) ++ [tarTarget w mem header]

/-- The header at the start of a round of the loop over `tar_next`, or 0 behind the last round. -/
def tarHeader (w : Nat) (mem : Mem) (start : Nat) : (round : Nat) → Nat :=
  chase (tarNext w mem) 0 start

/-- The end of a member in whole blocks, in exact arithmetic. -/
def memberEnd (w : Nat) (mem : Mem) (header : Nat) : Nat :=
  header + 512 * ((512 + tarSize w mem header + 511) / 512)

/-- The walk ends, comes to no header twice, and reads only the `size` bytes at `start`. -/
structure WalksInside (w : Nat) (mem : Mem) (start size : Nat) : Prop where
  ends : ∃ n, tarHeader w mem start n = 0
  apart : ∀ m n, m < n → tarHeader w mem start n ≠ 0 →
    tarHeader w mem start m ≠ tarHeader w mem start n
  inside : ∀ n, tarHeader w mem start n ≠ 0 →
    ∀ a ∈ tarNextReads w mem (tarHeader w mem start n), start ≤ a ∧ a < start + size

/-- What holds of a walk of any image: it ends unless it comes back, it ends when no step wraps
round, and it stays inside when every member that it comes to ends inside. -/
structure WalksImage (w : Nat) (mem : Mem) (start size : Nat) : Prop where
  ends_iff : (∃ n, tarHeader w mem start n = 0) ↔ ∀ m n, m < n → tarHeader w mem start n ≠ 0 →
    tarHeader w mem start m ≠ tarHeader w mem start n
  ends : (∀ n, tarHeader w mem start n ≠ 0 →
    memberEnd w mem (tarHeader w mem start n) < 2 ^ w) → ∃ n, tarHeader w mem start n = 0
  inside : (∀ n, tarHeader w mem start n ≠ 0 →
    memberEnd w mem (tarHeader w mem start n) < start + size) → WalksInside w mem start size

variable {w : Nat} {mem mem' : Mem}

theorem tarNext_eq (w : Nat) (mem : Mem) (header : Nat) : tarNext w mem header =
    if mem (tarTarget w mem header) = 0#8 then 0 else tarTarget w mem header := rfl

theorem octalField_congr (h : ∀ a ∈ octalReads w mem room field, mem' a = mem a) :
    octalField w mem' room field csize = octalField w mem room field csize := by
  induction room generalizing field csize with
  | zero => rfl
  | succ room ih =>
    obtain ⟨hfield, hrest⟩ := List.forall_mem_cons.1 h
    rw [octalField, octalField, hfield]
    split_ifs at hrest ⊢ with hnul
    · rfl
    · exact ih hrest

theorem tarNext_congr (h : ∀ a ∈ tarNextReads w mem header, mem' a = mem a) :
    tarNext w mem' header = tarNext w mem header := by
  obtain ⟨hsize, hnext⟩ := List.forall_mem_append.1 h
  have htarget : tarTarget w mem' header = tarTarget w mem header := by
    rw [tarTarget, tarTarget, tarSize, tarSize, octalField_congr hsize]
  rw [tarNext_eq, tarNext_eq, htarget, List.forall_mem_singleton.1 hnext]

theorem octalReads_bounds (hw : field + room ≤ 2 ^ w) :
    ∀ a ∈ octalReads w mem room field, field ≤ a ∧ a < field + room := by
  induction room generalizing field with
  | zero => exact List.forall_mem_nil _
  | succ room ih =>
    refine List.forall_mem_cons.2 ⟨by omega, ?_⟩
    split_ifs with hnul
    · exact List.forall_mem_nil _
    · cases room with
      | zero => exact List.forall_mem_nil _
      | succ room =>
        rw [wrap_of_lt (by omega)]
        intro a ha
        have hbound := ih (by omega) a ha
        omega

theorem le_memberEnd (w : Nat) (mem : Mem) (header : Nat) :
    header + 512 ≤ memberEnd w mem header := by
  rw [memberEnd]
  omega

/-- Without a wrap-around the walk steps to the end of the member. -/
theorem tarTarget_eq (h : memberEnd w mem header < 2 ^ w) :
    tarTarget w mem header = memberEnd w mem header := by
  have hle := le_memberEnd w mem header
  have hblock : 2 ^ w % 512 = 0 := by
    have h9 : 9 ≤ w := by
      by_contra hw
      have := Nat.pow_lt_pow_right (by decide : 1 < 2) (Nat.lt_of_not_le hw)
      omega
    exact Nat.mod_eq_zero_of_dvd (Nat.pow_dvd_pow 2 h9)
  rw [memberEnd] at h ⊢
  rw [tarTarget, wrap_of_lt (n := 512 + _) (by omega),
    alignCeiling_exact (by decide) (by omega), Nat.max_eq_left (by omega), wrap_of_lt]
  · omega
  · omega

theorem tarNext_lt (h : memberEnd w mem header < 2 ^ w) (hne : tarNext w mem header ≠ 0) :
    header < tarNext w mem header := by
  have hle := le_memberEnd w mem header
  rw [tarNext_eq, tarTarget_eq h] at hne ⊢
  split_ifs at hne ⊢ with hnul
  · exact absurd rfl hne
  · omega

theorem tarNext_lt_pow (w : Nat) (mem : Mem) (header : Nat) : tarNext w mem header < 2 ^ w := by
  rw [tarNext_eq]
  split_ifs with hnul
  · exact Nat.two_pow_pos w
  · exact Nat.mod_lt _ (Nat.two_pow_pos w)

theorem tarHeader_le (hstart : start ≤ 2 ^ w) (n : Nat) : tarHeader w mem start n ≤ 2 ^ w := by
  rw [tarHeader]
  induction n with
  | zero => exact hstart
  | succ n ih =>
    rw [chase]
    split_ifs with hnull
    · exact Nat.zero_le _
    · exact Nat.le_of_lt (tarNext_lt_pow w mem _)

theorem tarHeader_ends_iff (hstart : start ≤ 2 ^ w) : (∃ n, tarHeader w mem start n = 0) ↔
    ∀ m n, m < n → tarHeader w mem start n ≠ 0 →
      tarHeader w mem start m ≠ tarHeader w mem start n :=
  chase_ends_iff (Set.finite_Iic (2 ^ w)) (tarHeader_le hstart)

/-- A walk that never wraps round goes up through the memory. -/
theorem tarHeader_lt (h : ∀ n, tarHeader w mem start n ≠ 0 →
      memberEnd w mem (tarHeader w mem start n) < 2 ^ w)
    (hlt : m < n) (hne : tarHeader w mem start n ≠ 0) :
    tarHeader w mem start m < tarHeader w mem start n := by
  refine chase_lt (fun n hne => ?_) hlt hne
  have hn : tarHeader w mem start n ≠ 0 := fun hn => hne (if_pos hn)
  rw [chase_next hn] at hne ⊢
  exact tarNext_lt (h n hn) hne

theorem tarNextReads_bounds (h : memberEnd w mem header < 2 ^ w) :
    ∀ a ∈ tarNextReads w mem header, header ≤ a ∧ a ≤ memberEnd w mem header := by
  have hle := le_memberEnd w mem header
  have hfield : TAR_SIZE = 124 := rfl
  refine List.forall_mem_append.2 ⟨fun a ha => ?_, List.forall_mem_singleton.2 ?_⟩
  · rw [wrap_of_lt (by omega)] at ha
    have hbound := octalReads_bounds (by omega) a ha
    omega
  · rw [tarTarget_eq h]
    omega

theorem walksImage (hfit : start + size ≤ 2 ^ w) : WalksImage w mem start size := by
  have hiff : (∃ n, tarHeader w mem start n = 0) ↔ _ :=
    tarHeader_ends_iff (Nat.le_of_add_right_le hfit)
  have hends (h : ∀ n, tarHeader w mem start n ≠ 0 →
      memberEnd w mem (tarHeader w mem start n) < 2 ^ w) : ∃ n, tarHeader w mem start n = 0 :=
    hiff.2 fun m n hlt hne => Nat.ne_of_lt (tarHeader_lt h hlt hne)
  refine ⟨hiff, hends, fun hin => ?_⟩
  have h (n : Nat) (hne : tarHeader w mem start n ≠ 0) :
      memberEnd w mem (tarHeader w mem start n) < 2 ^ w := (hin n hne).trans_le hfit
  refine ⟨hends h, hiff.1 (hends h), fun n hne a ha => ?_⟩
  have hbound := tarNextReads_bounds (h n hne) a ha
  have hfirst : start ≤ tarHeader w mem start n := by
    cases n with
    | zero => exact le_refl start
    | succ n => exact Nat.le_of_lt (tarHeader_lt h (Nat.succ_pos n) hne)
  have hlast := hin n hne
  omega

theorem walksImage_twoFiles :
    WalksInside 64 (memoryOf 4096 twoFilesBytes) 4096 twoFilesBytes.length := by
  have hfit : 4096 + twoFilesBytes.length ≤ 2 ^ 64 := by decide +kernel
  refine (walksImage hfit).inside fun n hne => ?_
  have hended : tarHeader 64 (memoryOf 4096 twoFilesBytes) 4096 2 = 0 := by decide +kernel
  have hlt : n < 2 := by
    by_contra hle
    exact hne (chase_ended hended (Nat.le_of_not_lt hle))
  have hinside : ∀ n < 2, memberEnd 64 (memoryOf 4096 twoFilesBytes)
      (tarHeader 64 (memoryOf 4096 twoFilesBytes) 4096 n) < 4096 + twoFilesBytes.length := by
    decide +kernel
  exact hinside n hlt

/-- Its header's size makes `tar_next` come back to the header. -/
def stalledImage : List Byte :=
  0x61#8 :: (List.replicate 123 0#8 ++ ([0x2F#8, 0x29#8, 0x2B#8, 0x30#8] ++ List.replicate 896 0#8))

/-- An empty file without a closing block. -/
def unclosedImage : List Byte := 0x61#8 :: List.replicate 511 0#8

/-- One walk does not end, the other one reads behind its image. -/
theorem not_walksInside :
    ¬ WalksInside 64 (memoryOf 4096 stalledImage) 4096 stalledImage.length ∧
      ¬ WalksInside 64 (memoryOf 4096 unclosedImage) 4096 unclosedImage.length := by
  constructor
  · intro h
    obtain ⟨n, hn⟩ := h.ends
    have hnext : tarNext 64 (memoryOf 4096 stalledImage) 4096 = 4096 := by decide +kernel
    have hstay (n : Nat) : tarHeader 64 (memoryOf 4096 stalledImage) 4096 n = 4096 := by
      induction n with
      | zero => rfl
      | succ n ih =>
        have hne : tarHeader 64 (memoryOf 4096 stalledImage) 4096 n ≠ 0 := by
          rw [ih]
          decide
        rw [tarHeader] at ih hne ⊢
        rw [chase_next hne, ih, hnext]
    rw [hstay] at hn
    exact absurd hn (by decide)
  · intro h
    have hread : 4608 ∈ tarNextReads 64 (memoryOf 4096 unclosedImage) 4096 := by decide +kernel
    have hbound := h.inside 0 (by decide) 4608 hread
    have hlen : unclosedImage.length = 512 := by
      rw [unclosedImage, List.length_cons, List.length_replicate]
    omega

namespace Kernel

theorem mountArchive_ends_iff (w : Nat) (fs : Int) (fuel start : Nat) (k : Kernel Devices) :
    (mountArchive w fs fuel start k).isSome ↔ ∃ n < fuel, tarHeader w k.mem start n = 0 := by
  induction fuel generalizing start k with
  | zero =>
    refine iff_of_false Bool.false_ne_true ?_
    rintro ⟨n, hn, -⟩
    exact absurd hn (Nat.not_lt_zero n)
  | succ fuel ih =>
    rw [mountArchive]
    split_ifs with hend
    · exact iff_of_true rfl ⟨0, Nat.succ_pos fuel, hend⟩
    · rw [ih, mountEntry_mem]
      constructor
      · rintro ⟨n, hn, hnull⟩
        refine ⟨n + 1, Nat.succ_lt_succ hn, ?_⟩
        rw [tarHeader, chase_tail hend]
        exact hnull
      · rintro ⟨n, hn, hnull⟩
        cases n with
        | zero => exact absurd hnull hend
        | succ n =>
          rw [tarHeader, chase_tail hend] at hnull
          exact ⟨n, Nat.lt_of_succ_lt_succ hn, hnull⟩

theorem initrdCreate_ends_iff (w : Nat) (k : Kernel Devices) (start : Nat) (name : Chars) :
    (∃ fuel, (initrdCreate w fuel k start name).isSome) ↔ ∃ n, tarHeader w k.mem start n = 0 := by
  have hiff (fuel : Nat) : (initrdCreate w fuel k start name).isSome ↔
      ∃ n < fuel, tarHeader w k.mem start n = 0 := by
    rw [initrdCreate, Option.isSome_map, mountArchive_ends_iff]
  constructor
  · rintro ⟨fuel, h⟩
    obtain ⟨n, -, hnull⟩ := (hiff fuel).1 h
    exact ⟨n, hnull⟩
  · rintro ⟨n, hnull⟩
    exact ⟨n + 1, (hiff _).2 ⟨n, Nat.lt_succ_self n, hnull⟩⟩

end Kernel

end Tupai
