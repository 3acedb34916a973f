import Mathlib.Tactic.Common

namespace Tupai.Lib
set_option autoImplicit true

/-- States that finitely many steps lead to from an initial state. -/
inductive Reachable (start : σ → Prop) (next : σ → σ → Prop) : σ → Prop where
  | init : start s → Reachable start next s
  | step : Reachable start next s → next s t → Reachable start next t

theorem Reachable.mono (h : Reachable start next s) (hle : ∀ s t, next s t → next' s t) :
    Reachable start next' s := by
  induction h with
  | init hs => exact .init hs
  | step _ ht ih => exact .step ih (hle _ _ ht)

/-- The invariant rule: what holds initially and survives every step holds of every run. -/
theorem Reachable.invariant {I : σ → Prop} (h : Reachable start next s)
    (hinit : ∀ s, start s → I s) (hstep : ∀ s t, I s → next s t → I t) : I s := by
  induction h with
  | init hs => exact hinit _ hs
  | step _ ht ih => exact hstep _ _ ih ht

/-- The simulation rule: where every step is followed by one step or by none, every run is
followed by a run. -/
theorem Reachable.simulate {R : σ → τ → Prop} (h : Reachable start next s)
    (hinit : ∀ s, start s → ∃ t, start' t ∧ R s t)
    (hstep : ∀ s s' t, Reachable start' next' t → R s t → next s s' →
      R s' t ∨ ∃ t', next' t t' ∧ R s' t') :
    ∃ t, Reachable start' next' t ∧ R s t := by
  induction h with
  | init hs =>
    obtain ⟨t, ht, hR⟩ := hinit _ hs
    exact ⟨t, .init ht, hR⟩
  | step _ hs ih =>
    obtain ⟨t, ht, hR⟩ := ih
    rcases hstep _ _ t ht hR hs with hR' | ⟨t', ht', hR'⟩
    · exact ⟨t, ht, hR'⟩
    · exact ⟨t', ht.step ht', hR'⟩

/-- The state that a list of actions leads to, if each of them is possible. -/
def perform (step : σ → ι → Option σ) : σ → List ι → Option σ
  | s, [] => some s
  | s, a :: actions => (step s a).bind fun s' => perform step s' actions

/-- The actions that a guard lets pass. -/
def guarded (P : σ → ι → Prop) [∀ s a, Decidable (P s a)] (step : σ → ι → Option σ) (s : σ)
    (a : ι) : Option σ :=
  if P s a then step s a else none

theorem Reachable.perform {step : σ → ι → Option σ} {P : σ → ι → Prop}
    [∀ s a, Decidable (P s a)] (h : Reachable start next s)
    (hnext : ∀ s a t, P s a → step s a = some t → next s t)
    (hp : Lib.perform (guarded P step) s actions = some t) : Reachable start next t := by
  induction actions generalizing s with
  | nil =>
    cases hp
    exact h
  | cons a actions ih =>
    obtain ⟨s', hs, hp⟩ := Option.bind_eq_some_iff.1 hp
    rw [guarded] at hs
    split_ifs at hs with ha
    exact ih (h.step (hnext s a s' ha hs)) hp

/-- What a list of calls returns one after the other, and the last state. -/
def runCalls (step : σ → ι → ω × σ) : (s : σ) → (calls : List ι) → List ω × σ
  | s, [] => ([], s)
  | s, c :: calls =>
    let (out, s) := step s c
    let (outs, s) := runCalls step s calls
    (out :: outs, s)

/-- The two-run rule: states in a relation that every call keeps return the same. -/
theorem runCalls_congr {step : σ → ι → ω × σ} {R : σ → σ → Prop}
    (hstep : ∀ s t c, R s t → (step s c).1 = (step t c).1 ∧ R (step s c).2 (step t c).2)
    (h : R s t) (calls : List ι) : (runCalls step s calls).1 = (runCalls step t calls).1 := by
  induction calls generalizing s t with
  | nil => rfl
  | cons c calls ih =>
    obtain ⟨hout, hnext⟩ := hstep s t c h
    exact congrArg₂ List.cons hout (ih hnext)

/-- Every call of a run meets `P` in the state that it is made in. -/
def Throughout (call : σ → ι → Option σ) (P : σ → ι → Prop) : σ → List ι → Prop
  | _, [] => True
  | s, c :: calls => P s c ∧ ∀ s', call s c = some s' → Throughout call P s' calls

/-- The guard rule: where the guard `Q` keeps an invariant under which it says the same as `P`,
the runs that meet `P` throughout are those that meet the guard throughout. -/
theorem Throughout.iff_guard {call : σ → ι → Option σ} {I : σ → Prop}
    (hiff : ∀ s c, I s → (P s c ↔ Q s c))
    (hstep : ∀ s c s', I s → Q s c → call s c = some s' → I s') (hs : I s) (calls : List ι) :
    Throughout call P s calls ↔ Throughout call Q s calls := by
  induction calls generalizing s with
  | nil => exact .rfl
  | cons c calls ih =>
    rw [Throughout, Throughout, hiff s c hs]
    apply and_congr_right
    intro hq
    apply forall_congr'
    intro s'
    exact imp_congr_right fun hc => ih (hstep s c s' hs hq hc)

/-- The exact-guard rule: guarded runs are safe because of an invariant, and a step that breaks the
guard leads to a state that is not safe. -/
theorem exact_guard {step : σ → ι → Option σ} {next : σ → σ → Prop} {I P : σ → Prop}
    {Q : σ → ι → Prop}
    (hsafe : ∀ s, I s → P s) (hstep : ∀ s t, I s → next s t → I t)
    (hnext : ∀ s a t, Q s a → step s a = some t → next s t)
    (hbad : ∀ s a t, I s → ¬ Q s a → step s a = some t → ∃ d, Reachable (· = t) next d ∧ ¬ P d)
    (hs : I s) : P s ∧ ∀ a t, step s a = some t →
      (Q s a ↔ ∀ d, Reachable (· = t) next d → P d) := by
  refine ⟨hsafe s hs, fun a t ha => ⟨fun hq d hd => ?_, fun hall => ?_⟩⟩
  · apply hsafe
    apply hd.invariant
    · rintro _ rfl
      exact hstep s _ hs (hnext s a _ hq ha)
    · exact hstep
  · by_contra hq
    obtain ⟨d, hd, hunsafe⟩ := hbad s a t hs hq ha
    exact hunsafe (hall d hd)

end Tupai.Lib
