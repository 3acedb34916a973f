import Tupai.Basic
import Tupai.Lib.Nesting

namespace Tupai
open Lib
set_option autoImplicit true

/-- The two globals that all `hwlock_t` instances share, and the CPU's interrupt flag. -/
structure HwState where
  hwIntEnabled : Bool
  hwLocked : Bool
  interruptFlag : Bool
deriving DecidableEq

def interruptEnabled (s : HwState) : Bool := s.interruptFlag

def interruptEnable (s : HwState) (enable : Bool) : HwState := { s with interruptFlag := enable }

def hwLock (s : HwState) : HwState :=
  if !s.hwLocked then
    let s := { s with hwIntEnabled := interruptEnabled s }
    let s := if s.hwIntEnabled then interruptEnable s false else s
    { s with hwLocked := true }
  else s

def hwUnlock (s : HwState) : HwState :=
  if s.hwLocked then
    let s := if s.hwIntEnabled then interruptEnable s true else s
    let s := { s with hwIntEnabled := interruptEnabled s }
    { s with hwLocked := false }
  else s

/-- A call of `lock()` is an opening bracket, a call of `unlock()` a closing one; the label is
the `hwlock_t` instance, which holds no data. -/
def hwCall (s : HwState) : Bracket ι → HwState
  | .opening _ => hwLock s
  | .closing _ => hwUnlock s

def hwRun (s : HwState) (calls : List (Bracket ι)) : HwState := calls.foldl hwCall s

/-- Interrupts are off inside every critical section and as before outside all of them. -/
structure HwDiscipline [DecidableEq ι] (s : HwState) (calls : List (Bracket ι)) : Prop where
  masked : ∀ p, p <+: calls → ∀ i st, pending [] p = some (i :: st) →
    (hwRun s p).interruptFlag = false
  restored : ∀ p, p <+: calls → pending [] p = some [] →
    (hwRun s p).interruptFlag = s.interruptFlag

/-- With interrupts off from the start no call can turn them on. -/
def HwOff (s : HwState) : Prop :=
  s.interruptFlag = false ∧ (s.hwLocked = true → s.hwIntEnabled = false)

theorem HwOff.call (h : HwOff s) (b : Bracket ι) : HwOff (hwCall s b) := by
  obtain ⟨e, l, f⟩ := s
  obtain ⟨hf, hl⟩ := h
  cases b <;> cases e <;> cases l <;> cases f <;>
    simp_all [HwOff, hwCall, hwLock, hwUnlock, interruptEnabled, interruptEnable]

theorem HwOff.run (h : HwOff s) (calls : List (Bracket ι)) : HwOff (hwRun s calls) := by
  induction calls generalizing s with
  | nil => exact h
  | cons b calls ih => exact ih (h.call b)

/-- At most one critical section is open at any point of the word. -/
def Shallow [DecidableEq ι] (st : List ι) (calls : List (Bracket ι)) : Prop :=
  ∀ p, p <+: calls → ∀ st', pending st p = some st' → st'.length ≤ 1

/-- The state that the globals are in while the code tracks the nesting correctly. -/
structure HwSync (s : HwState) (st : List ι) : Prop where
  locked : s.hwLocked = !st.isEmpty
  flag : s.interruptFlag = st.isEmpty
  saved : s.hwLocked = true → s.hwIntEnabled = true

theorem HwSync.lock (h : HwSync s ([] : List ι)) (i : ι) : HwSync (hwLock s) [i] := by
  obtain ⟨hl, hf, _⟩ := h
  constructor <;> simp_all [hwLock, interruptEnabled, interruptEnable]

theorem HwSync.unlock {i : ι} (h : HwSync s [i]) : HwSync (hwUnlock s) ([] : List ι) := by
  obtain ⟨hl, hf, hs⟩ := h
  constructor <;> simp_all [hwUnlock, interruptEnabled, interruptEnable]

variable [DecidableEq ι]

theorem Shallow.tail {st st₁ : List ι} {b : Bracket ι} (h : Shallow st (b :: calls))
    (hb : ∀ p, pending st (b :: p) = pending st₁ p) : Shallow st₁ calls := by
  intro p hp st' hst
  exact h (b :: p) ((List.prefix_cons_inj b).2 hp) st' ((hb p).trans hst)

theorem Shallow.cons {st st₁ : List ι} {b : Bracket ι} (h : Shallow st₁ calls)
    (hlen : st.length ≤ 1) (hb : ∀ p, pending st (b :: p) = pending st₁ p) :
    Shallow st (b :: calls) := by
  intro p hp st' hst
  cases p with
  | nil => cases hst; exact hlen
  | cons c p =>
    obtain ⟨rfl, hp'⟩ := List.cons_prefix_cons.1 hp
    exact h p hp' st' ((hb p).symm.trans hst)

theorem Shallow.length_le {st : List ι} (h : Shallow st calls) : st.length ≤ 1 :=
  h [] List.nil_prefix st rfl

theorem HwSync.run {st st' : List ι} (h : HwSync s st) (hs : Shallow st calls)
    (hp : pending st calls = some st') : HwSync (hwRun s calls) st' := by
  induction calls generalizing s st with
  | nil =>
    cases hp
    exact h
  | cons b calls ih =>
    cases b with
    | opening i =>
      have ht : Shallow (i :: st) calls := hs.tail fun _ => rfl
      have hlen := ht.length_le
      cases st with
      | nil => exact ih (h.lock i) ht hp
      | cons j st => simp only [List.length_cons] at hlen; omega
    | closing j =>
      obtain ⟨rest, rfl, hrest⟩ := pending_closing hp
      have hlen := hs.length_le
      have hnil : rest = [] := List.length_eq_zero_iff.1 (by
        simp only [List.length_cons] at hlen; omega)
      subst hnil
      have ht : Shallow ([] : List ι) calls := hs.tail fun p => by rw [pending, if_pos rfl]
      exact ih h.unlock ht hrest

/-- A point inside a critical section where interrupts are on. -/
def Exposed (s : HwState) (st : List ι) (calls : List (Bracket ι)) : Prop :=
  ∃ p, p <+: calls ∧ ∃ i st', pending st p = some (i :: st') ∧ (hwRun s p).interruptFlag = true

theorem Exposed.cons {st st₁ : List ι} {b : Bracket ι} (h : Exposed (hwCall s b) st₁ calls)
    (hb : ∀ p, pending st (b :: p) = pending st₁ p) : Exposed s st (b :: calls) := by
  obtain ⟨p, hp, i, st', hst, hf⟩ := h
  exact ⟨b :: p, (List.prefix_cons_inj b).2 hp, i, st', (hb p).trans hst, hf⟩

/-- From two open sections on, the next `unlock()` turns interrupts on too early. -/
theorem exposed_of_deep {st : List ι} {i j : ι} (hl : s.hwLocked = true)
    (he : s.hwIntEnabled = true) (hp : pending (i :: j :: st) calls = some []) :
    Exposed s (i :: j :: st) calls := by
  induction calls generalizing i j st with
  | nil => cases hp
  | cons b calls ih =>
    cases b with
    | opening k =>
      have hlock : hwCall s (.opening k) = s := by simp only [hwCall, hwLock, hl]; rfl
      have hx : Exposed (hwCall s (.opening k)) (k :: i :: j :: st) calls := by
        rw [hlock]
        exact ih hp
      exact hx.cons fun _ => rfl
    | closing k =>
      obtain ⟨rest, hst, _⟩ := pending_closing hp
      cases hst
      refine ⟨[.closing i], ⟨calls, rfl⟩, j, st, by simp only [pending, ↓reduceIte], ?_⟩
      simp [hwRun, hwCall, hwUnlock, hl, he, interruptEnable]

theorem exposed_of_deep_lock {st : List ι} {i j : ι} (h : HwSync s (j :: st))
    (hp : pending (i :: j :: st) calls = some []) :
    Exposed s (j :: st) (.opening i :: calls) := by
  have hlock : hwCall s (.opening i) = s := by simp only [hwCall, hwLock, h.locked]; rfl
  have hx : Exposed (hwCall s (.opening i)) (i :: j :: st) calls := by
    rw [hlock]
    exact exposed_of_deep h.locked (h.saved h.locked) hp
  exact hx.cons fun _ => rfl

theorem exposed_of_not_shallow {st : List ι} (h : HwSync s st) (hlen : st.length ≤ 1)
    (hp : pending st calls = some []) (hs : ¬ Shallow st calls) : Exposed s st calls := by
  induction calls generalizing s st with
  | nil =>
    refine absurd ?_ hs
    intro p hpre st' hst
    rw [List.prefix_nil.1 hpre] at hst
    cases hst
    exact hlen
  | cons b calls ih =>
    cases b with
    | opening i =>
      cases st with
      | nil =>
        have hx : Exposed (hwCall s (.opening i)) [i] calls :=
          ih (h.lock i) (Nat.le_refl 1) hp fun ht => hs (ht.cons hlen fun _ => rfl)
        exact hx.cons fun _ => rfl
      | cons j st => exact exposed_of_deep_lock h hp
    | closing j =>
      obtain ⟨rest, rfl, hrest⟩ := pending_closing hp
      have hnil : rest = [] := List.length_eq_zero_iff.1 (by
        simp only [List.length_cons] at hlen; omega)
      subst hnil
      have hb (p : List (Bracket ι)) : pending [j] (.closing j :: p) = pending [] p := by
        rw [pending, if_pos rfl]
      have hx : Exposed (hwCall s (.closing j)) [] calls :=
        ih h.unlock (Nat.zero_le 1) hrest fun ht => hs (ht.cons hlen hb)
      exact hx.cons hb

/-- `hwlock_t` keeps its discipline on a properly nested word exactly when interrupts were off
to begin with or no critical section is opened inside another. -/
theorem hwDiscipline_iff (s : HwState) (calls : List (Bracket ι)) (hfree : s.hwLocked = false)
    (hn : Nested calls) :
    HwDiscipline s calls ↔ s.interruptFlag = false ∨ Shallow [] calls := by
  constructor
  · intro h
    by_cases hf : s.interruptFlag = false
    · exact .inl hf
    · refine .inr (by_contra fun hs => ?_)
      have hsync : HwSync s ([] : List ι) := ⟨hfree, by simpa using hf, by simp [hfree]⟩
      obtain ⟨p, hp, i, st, hst, hon⟩ := exposed_of_not_shallow hsync (Nat.zero_le 1) hn hs
      rw [h.masked p hp i st hst] at hon
      cases hon
  · intro h
    by_cases hf : s.interruptFlag = false
    · have hoff : HwOff s := ⟨hf, by simp [hfree]⟩
      exact ⟨fun p _ _ _ _ => (hoff.run p).1, fun p _ _ => (hoff.run p).1.trans hf.symm⟩
    · have hs := h.resolve_left hf
      have hon : s.interruptFlag = true := by simpa using hf
      have hsync : HwSync s ([] : List ι) := ⟨hfree, hon, by simp [hfree]⟩
      have hpre (p : List (Bracket ι)) (hp : p <+: calls) : Shallow [] p :=
        fun q hq st hst => hs q (hq.trans hp) st hst
      exact ⟨fun p hp i st hst => (hsync.run (hpre p hp) hst).flag,
        fun p hp hst => (hsync.run (hpre p hp) hst).flag.trans hon.symm⟩

/-- Two nested sections keep the discipline with interrupts off, and break it with them on. -/
theorem hwDiscipline_iff_nested :
    let calls : List (Bracket Nat) := [.opening 0, .opening 1, .closing 1, .closing 0]
    HwDiscipline ⟨false, false, false⟩ calls ∧ ¬ HwDiscipline ⟨false, false, true⟩ calls := by
  intro calls
  refine ⟨(hwDiscipline_iff _ calls rfl rfl).2 (.inl rfl), fun h => ?_⟩
  rcases (hwDiscipline_iff _ calls rfl rfl).1 h with hoff | hshallow
  · cases hoff
  · exact absurd (hshallow [.opening 0, .opening 1] ⟨_, rfl⟩ _ rfl) (by decide)

/-- Two nested sections with interrupts on: they come back on after the inner `unlock()`. -/
theorem hwDiscipline_fails :
    ¬ ∀ (s : HwState) (calls : List (Bracket Nat)), s.hwLocked = false → Nested calls →
      HwDiscipline s calls := by
  intro h
  have hd := h ⟨false, false, true⟩ [.opening 0, .opening 1, .closing 1, .closing 0] rfl rfl
  have hoff := hd.masked [.opening 0, .opening 1, .closing 1] ⟨[.closing 0], rfl⟩ 0 [] rfl
  exact absurd hoff (by decide)

end Tupai
