import Tupai.Masking

namespace Tupai
set_option autoImplicit true

namespace HwPoint

/-- A point of `lock()`. -/
def Locks : HwPoint → Prop
  | .lockTest | .lockSample | .lockSave _ | .lockBranch | .lockMask | .lockMark => True
  | _ => False

/-- A point of `unlock()`. -/
def Unlocks : HwPoint → Prop
  | .unlockTest | .unlockBranch | .unlockUnmask | .unlockSample | .unlockSave _ | .unlockClear =>
    True
  | _ => False

/-- With interrupts off, the rest of an `unlock()` turns them on. -/
def Unmasks (hw : HwState) : HwPoint → Prop
  | .unlockTest => hw.hwLocked = true ∧ hw.hwIntEnabled = true
  | .unlockBranch => hw.hwIntEnabled = true
  | .unlockUnmask => True
  | _ => False

/-- With interrupts off, the rest of a `lock()` leaves a lock whose `unlock()` turns them on. -/
def Restorable (hw : HwState) : HwPoint → Prop
  | .lockTest => hw.hwLocked = true ∧ hw.hwIntEnabled = true
  | .lockMark => hw.hwIntEnabled = true
  | _ => False

/-- The accesses that are left at most. -/
def left : HwPoint → Nat
  | .idle => 0
  | .lockTest | .unlockTest => 6
  | .lockSample | .unlockBranch => 5
  | .lockSave _ | .unlockUnmask => 4
  | .lockBranch | .unlockSample => 3
  | .lockMask | .unlockSave _ => 2
  | .lockMark | .unlockClear => 1

variable {point : HwPoint}

theorem Locks.ne_idle (h : point.Locks) : point ≠ .idle := by
  rintro rfl
  exact h

theorem Unlocks.ne_idle (h : point.Unlocks) : point ≠ .idle := by
  rintro rfl
  exact h

theorem Locks.access (h : point.Locks) (hw : HwState) (hne : (hwAccess hw point).2 ≠ .idle) :
    (hwAccess hw point).2.Locks := by
  obtain ⟨e, l, f⟩ := hw
  cases point with
  | lockTest | lockBranch => cases e <;> cases l <;> trivial
  | lockSample | lockSave | lockMask => trivial
  | lockMark => exact absurd rfl hne
  | idle | unlockTest | unlockBranch | unlockUnmask | unlockSample | unlockSave | unlockClear =>
    cases h

theorem Unlocks.access (h : point.Unlocks) (hw : HwState) (hne : (hwAccess hw point).2 ≠ .idle) :
    (hwAccess hw point).2.Unlocks := by
  obtain ⟨e, l, f⟩ := hw
  cases point with
  | unlockTest | unlockBranch => cases e <;> cases l <;> trivial
  | unlockUnmask | unlockSample | unlockSave => trivial
  | unlockClear => exact absurd rfl hne
  | idle | lockTest | lockSample | lockSave | lockBranch | lockMask | lockMark => cases h

theorem left_access (hw : HwState) (hne : point ≠ .idle) :
    (hwAccess hw point).2.left < point.left := by
  obtain ⟨e, l, f⟩ := hw
  cases point with
  | idle => exact absurd rfl hne
  | lockTest | unlockTest | lockBranch | unlockBranch =>
    cases e <;> cases l <;> decide +revert
  | lockSample | lockSave | lockMask | lockMark | unlockUnmask | unlockSample | unlockSave
    | unlockClear => decide +revert

theorem left_le (point : HwPoint) : point.left ≤ 6 := by
  cases point <;> decide +revert

/-- Only the `cli` of a `lock()` turns interrupts off. -/
theorem access_flag {hw : HwState} (hon : hw.interruptFlag = true)
    (hoff : (hwAccess hw point).1.interruptFlag = false) : point = .lockMask := by
  cases point with
  | lockMask => rfl
  | unlockUnmask => cases hoff
  | idle | lockTest | lockSample | lockSave | lockBranch | lockMark | unlockTest | unlockBranch
    | unlockSample | unlockSave | unlockClear => cases hon.symm.trans hoff

/-- With interrupts off, a `lock()` that is left restorable returns so. -/
theorem Restorable.access {hw : HwState} (h : point.Restorable hw) :
    (hwAccess hw point).2 = .idle ∧ (hwAccess hw point).1.hwLocked = true ∧
      (hwAccess hw point).1.hwIntEnabled = true := by
  cases point with
  | lockTest =>
    obtain ⟨hl, he⟩ := h
    simp [hwAccess, hl, he]
  | lockMark => exact ⟨rfl, rfl, h⟩
  | idle | lockSample | lockSave | lockBranch | lockMask | unlockTest | unlockBranch | unlockUnmask
    | unlockSample | unlockSave | unlockClear => cases h

theorem Unmasks.access {hw : HwState} (h : point.Unmasks hw)
    (hoff : (hwAccess hw point).1.interruptFlag = false) :
    (hwAccess hw point).2 ≠ .idle ∧ (hwAccess hw point).2.Unmasks (hwAccess hw point).1 := by
  cases point with
  | unlockTest =>
    obtain ⟨hl, he⟩ := h
    simp [hwAccess, hl, he, Unmasks]
  | unlockBranch =>
    have he : hw.hwIntEnabled = true := h
    simp [hwAccess, he, Unmasks]
  | unlockUnmask => cases hoff
  | idle | lockTest | lockSample | lockSave | lockBranch | lockMask | lockMark | unlockSample
    | unlockSave | unlockClear => cases h

end HwPoint

/-- The locks that every call of the kernel heap takes: `hwlock_t` with the CPU's flag, and the
word of the pool's spinlock. -/
structure KmemLocks where
  hw : HwState
  pool : Nat

/-- The points of `kmem_alloc` and `kmem_dealloc` between two accesses to the locks. -/
inductive KmemPoint where
  | lock (point : HwPoint)
  | poolLock
  | poolUnlock
  | unlock (point : HwPoint)
deriving DecidableEq

/-- There is no next point when the call returns. -/
def kmemStep (s : KmemLocks) : KmemPoint → KmemLocks × Option KmemPoint
  | .lock point =>
    let (hw, point) := hwAccess s.hw point
    ({ s with hw := hw }, some (if point = .idle then .poolLock else .lock point))
  | .poolLock => ({ s with pool := 1 }, some (if s.pool = 0 then .poolUnlock else .poolLock))
  | .poolUnlock => ({ s with pool := 0 }, some (.unlock .unlockTest))
  | .unlock point =>
    let (hw, point) := hwAccess s.hw point
    ({ s with hw := hw }, if point = .idle then none else some (.unlock point))

namespace KmemPoint

def Proper : KmemPoint → Prop
  | .lock point => point.Locks
  | .unlock point => point.Unlocks
  | .poolLock | .poolUnlock => True

/-- The call is about to turn interrupts off. -/
def Masks : KmemPoint → Prop
  | .lock point => point = .lockMask
  | _ => False

instance : (point : KmemPoint) → Decidable point.Masks
  | .lock point => inferInstanceAs (Decidable (point = .lockMask))
  | .poolLock | .poolUnlock | .unlock _ => isFalse id

/-- With interrupts off, the call turns them on, or waits for the pool. -/
def Relieved (s : KmemLocks) : KmemPoint → Prop
  | .lock point => s.pool ≠ 0 ∨ point.Restorable s.hw
  | .poolLock => s.pool ≠ 0 ∨ s.hw.hwLocked = true ∧ s.hw.hwIntEnabled = true
  | .poolUnlock => s.hw.hwLocked = true ∧ s.hw.hwIntEnabled = true
  | .unlock point => point.Unmasks s.hw

/-- With interrupts off, the call returns and leaves them off. -/
def Stays (s : KmemLocks) : KmemPoint → Prop
  | .lock point => s.pool = 0 ∧ Cpu.Settled s.hw ⟨point, 1⟩
  | .poolLock => s.pool = 0
  | .poolUnlock => True
  | .unlock point => s.pool = 0 ∧ Cpu.Settled s.hw ⟨point, 1⟩

/-- The steps that are left at most, unless the call waits for the pool. -/
def left : KmemPoint → Nat
  | .lock point => 10 + point.left
  | .poolLock => 9
  | .poolUnlock => 8
  | .unlock point => 1 + point.left

variable {s : KmemLocks} {point next : KmemPoint}

theorem left_le (point : KmemPoint) : point.left ≤ 16 := by
  cases point with
  | lock point | unlock point =>
    have hle := point.left_le
    rw [left]
    omega
  | poolLock | poolUnlock => decide

theorem kmemStep_lock (s : KmemLocks) (point : HwPoint) : kmemStep s (.lock point) =
    ({ s with hw := (hwAccess s.hw point).1 }, some (if (hwAccess s.hw point).2 = .idle then
      .poolLock else .lock (hwAccess s.hw point).2)) := rfl

theorem kmemStep_unlock (s : KmemLocks) (point : HwPoint) : kmemStep s (.unlock point) =
    ({ s with hw := (hwAccess s.hw point).1 }, if (hwAccess s.hw point).2 = .idle then none
      else some (.unlock (hwAccess s.hw point).2)) := rfl

theorem Proper.step (h : point.Proper) (hnext : (kmemStep s point).2 = some next) :
    next.Proper := by
  cases point with
  | lock point =>
    rw [kmemStep_lock, Option.some.injEq] at hnext
    by_cases hidle : (hwAccess s.hw point).2 = .idle
    · rw [← hnext, if_pos hidle]
      trivial
    · rw [← hnext, if_neg hidle]
      exact HwPoint.Locks.access h s.hw hidle
  | poolLock =>
    obtain rfl := Option.some.inj hnext
    split_ifs <;> trivial
  | poolUnlock =>
    cases hnext
    trivial
  | unlock point =>
    rw [kmemStep_unlock] at hnext
    by_cases hidle : (hwAccess s.hw point).2 = .idle
    · rw [if_pos hidle] at hnext
      cases hnext
    · rw [if_neg hidle, Option.some.injEq] at hnext
      rw [← hnext]
      exact HwPoint.Unlocks.access h s.hw hidle

theorem kmemStep_flag (h : point.Proper) (hon : s.hw.interruptFlag = true)
    (hoff : (kmemStep s point).1.hw.interruptFlag = false) : point.Masks := by
  cases point with
  | lock point => exact HwPoint.access_flag hon hoff
  | poolLock | poolUnlock => cases hon.symm.trans hoff
  | unlock point =>
    cases HwPoint.access_flag hon hoff
    cases h

theorem Relieved.step (h : point.Relieved s)
    (hoff : (kmemStep s point).1.hw.interruptFlag = false) :
    ∃ next, (kmemStep s point).2 = some next ∧ next.Relieved (kmemStep s point).1 := by
  cases point with
  | lock point =>
    rw [kmemStep_lock]
    refine ⟨_, rfl, ?_⟩
    rcases h with hpool | hrest
    · by_cases hidle : (hwAccess s.hw point).2 = .idle
      · rw [if_pos hidle]
        exact .inl hpool
      · rw [if_neg hidle]
        exact .inl hpool
    · obtain ⟨hidle, hback⟩ := hrest.access
      rw [if_pos hidle]
      exact .inr hback
  | poolLock =>
    refine ⟨_, rfl, ?_⟩
    by_cases hpool : s.pool = 0
    · rw [if_pos hpool]
      exact h.resolve_left fun hne => hne hpool
    · rw [if_neg hpool]
      exact .inl Nat.one_ne_zero
  | poolUnlock => exact ⟨_, rfl, h⟩
  | unlock point =>
    obtain ⟨hidle, hrest⟩ := HwPoint.Unmasks.access h hoff
    exact ⟨_, if_neg hidle, hrest⟩

theorem Stays.not_masks (h : point.Stays s) : ¬ point.Masks := by
  cases point with
  | lock point =>
    rintro rfl
    cases h.2
  | poolLock | poolUnlock | unlock => exact id

/-- With interrupts off, a call that finds the pool free returns, with interrupts off. -/
theorem Stays.step (hp : point.Proper) (h : point.Stays s) (hoff : HwOff s.hw) :
    HwOff (kmemStep s point).1.hw ∧
      ((kmemStep s point).2 = none ∧ (kmemStep s point).1.pool = 0 ∨
        ∃ next, (kmemStep s point).2 = some next ∧ next.Stays (kmemStep s point).1 ∧
          next.left < point.left) := by
  cases point with
  | lock point =>
    have hne := HwPoint.Locks.ne_idle hp
    have hlt := HwPoint.left_access s.hw hne
    obtain ⟨hpool, hsettled⟩ := h
    obtain ⟨hoff', hsettled'⟩ := hsettled.access hoff hne
    rw [kmemStep_lock]
    refine ⟨hoff', .inr ⟨_, rfl, ?_⟩⟩
    by_cases hidle : (hwAccess s.hw point).2 = .idle
    · rw [if_pos hidle, left, left]
      exact ⟨hpool, by omega⟩
    · rw [if_neg hidle]
      exact ⟨⟨hpool, hsettled'⟩, Nat.add_lt_add_left hlt 10⟩
  | poolLock =>
    refine ⟨hoff, .inr ⟨.poolUnlock, ?_, trivial, by decide⟩⟩
    exact congrArg some (if_pos h)
  | poolUnlock => exact ⟨hoff, .inr ⟨_, rfl, ⟨rfl, trivial⟩, by decide⟩⟩
  | unlock point =>
    have hne := HwPoint.Unlocks.ne_idle hp
    have hlt := HwPoint.left_access s.hw hne
    obtain ⟨hpool, hsettled⟩ := h
    obtain ⟨hoff', hsettled'⟩ := hsettled.access hoff hne
    refine ⟨hoff', ?_⟩
    rw [kmemStep_unlock]
    by_cases hidle : (hwAccess s.hw point).2 = .idle
    · exact .inl ⟨if_pos hidle, hpool⟩
    · exact .inr ⟨_, if_neg hidle, ⟨hpool, hsettled'⟩, Nat.add_lt_add_left hlt 1⟩

end KmemPoint

end Tupai
