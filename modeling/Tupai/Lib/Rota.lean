import Mathlib.Data.List.Perm.Subperm
import Mathlib.Logic.Function.Iterate
import Mathlib.Tactic.Common

namespace Tupai.Lib
set_option autoImplicit true

/-- A queue whose members wait for a number of turns. One that still has turns to wait for goes
to the back with one turn less; one that was taken comes back with its full number. -/
structure Rota (α : Type u) (κ : Type v) where
  key : α → κ
  turns : α → Nat
  full : κ → Nat
  tick : α → α
  renew : α → α
  key_tick : ∀ a, key (tick a) = key a
  key_renew : ∀ a, key (renew a) = key a
  turns_tick : ∀ a, turns (tick a) = turns a - 1
  turns_renew : ∀ a, turns (renew a) = full (key a)

namespace Rota

variable (R : Rota α κ)

/-- The member that is taken, and the queue behind it. -/
def rotate : (fuel : Nat) → List α → Option (α × List α)
  | fuel + 1, a :: l => if R.turns a = 0 then some (a, l) else rotate fuel (l ++ [R.tick a])
  | _, _ => none

/-- The members taken one after the other. A member that was taken goes to the back before the
next one is taken. -/
inductive Takes : List α → List α → List α → Prop where
  | nil : Takes l [] l
  | cons : R.rotate fuel l = some (a, l₁) → Takes (l₁ ++ [R.renew a]) as l' → Takes l (a :: as) l'

/-- After `m` pops at most the member with the key is taken, in a queue of `n` members. -/
def Waits (k : κ) (n m : Nat) (l : List α) : Prop :=
  ∃ before x after, l = before ++ x :: after ∧ R.key x = k ∧
    before.length + R.turns x * (n - 1) ≤ m

variable {R} {l l' : List α} {k : κ}

theorem rotate_cons (R : Rota α κ) (fuel : Nat) (a : α) (l : List α) :
    R.rotate (fuel + 1) (a :: l) =
      if R.turns a = 0 then some (a, l) else R.rotate fuel (l ++ [R.tick a]) := rfl

theorem Waits.mono (hw : R.Waits k n m l) (hle : m ≤ m') : R.Waits k n m' l := by
  obtain ⟨before, x, after, hl, hx, hm⟩ := hw
  exact ⟨before, x, after, hl, hx, Nat.le_trans hm hle⟩

/-- Members that join at the back do not delay anyone. -/
theorem Waits.append (hw : R.Waits k n m l) (l₁ : List α) : R.Waits k n m (l ++ l₁) := by
  obtain ⟨before, x, after, rfl, hx, hm⟩ := hw
  refine ⟨before, x, after ++ l₁, ?_, hx, hm⟩
  rw [List.append_assoc, List.cons_append]

/-- Whoever else is taken, the member with the key has fewer pops to wait for. -/
theorem Waits.rotate (hw : R.Waits k n m l) (hn : l.length = n)
    (h : R.rotate fuel l = some (a, l')) :
    R.key a = k ∨ ∃ m', m = m' + 1 ∧ R.Waits k n m' l' := by
  induction fuel generalizing l m with
  | zero => cases h
  | succ fuel ih =>
    obtain ⟨before, x, after, rfl, hx, hle⟩ := hw
    rw [List.length_append, List.length_cons] at hn
    cases before with
    | nil =>
      rw [List.nil_append, rotate_cons] at h
      rw [List.length_nil, Nat.zero_add] at hle hn
      split_ifs at h with ht
      · cases h
        exact .inl hx
      · -- The member itself goes to the back, and the others are now in front of it.
        refine ih ⟨after, R.tick x, [], rfl, (R.key_tick x).trans hx, ?_⟩ ?_ h
        · obtain ⟨t, ht⟩ := Nat.exists_eq_succ_of_ne_zero ht
          rw [ht, Nat.succ_mul] at hle
          rw [R.turns_tick, ht, Nat.succ_sub_one]
          omega
        · rw [List.length_append, List.length_singleton, hn]
    | cons b before =>
      rw [List.cons_append, rotate_cons] at h
      rw [List.length_cons] at hle hn
      obtain ⟨m, rfl⟩ := Nat.exists_eq_add_of_le' (show 1 ≤ m by omega)
      have hw' : R.Waits k n m (before ++ x :: after) :=
        ⟨before, x, after, rfl, hx, by omega⟩
      split_ifs at h with ht
      · cases h
        exact .inr ⟨m, rfl, hw'⟩
      · have hlen : (before ++ x :: after ++ [R.tick b]).length = n := by
          simp only [List.length_append, List.length_cons, List.length_nil]
          omega
        refine (ih (hw'.append [R.tick b]) hlen h).imp_right ?_
        rintro ⟨m', rfl, hm'⟩
        exact ⟨m' + 1, rfl, hm'.mono (Nat.le_succ m')⟩

theorem rotate_length (h : R.rotate fuel l = some (a, l')) : l.length = l'.length + 1 := by
  induction fuel generalizing l with
  | zero => cases h
  | succ fuel ih =>
    cases l with
    | nil => cases h
    | cons b l =>
      rw [rotate_cons] at h
      split_ifs at h
      · cases h
        rfl
      · rw [List.length_cons, ← ih h, List.length_append]
        rfl

/-- Taking a member loses none and doubles none. -/
theorem rotate_keys (h : R.rotate fuel l = some (a, l')) :
    (l.map R.key).Perm (R.key a :: l'.map R.key) := by
  induction fuel generalizing l with
  | zero => cases h
  | succ fuel ih =>
    cases l with
    | nil => cases h
    | cons b l =>
      rw [rotate_cons] at h
      split_ifs at h
      · cases h
        exact .refl _
      · refine List.Perm.trans ?_ (ih h)
        rw [List.map_append, List.map_cons, List.map_singleton, R.key_tick]
        exact (List.perm_append_singleton ..).symm

/-- Members that still wait go to the back, each with one turn less. -/
theorem rotate_pass (hwait : ∀ x ∈ front, R.turns x ≠ 0) (fuel : Nat) (back : List α) :
    R.rotate (front.length + fuel) (front ++ back) =
      R.rotate fuel (back ++ front.map R.tick) := by
  induction front generalizing back with
  | nil => rw [List.length_nil, Nat.zero_add, List.nil_append, List.map_nil, List.append_nil]
  | cons x front ih =>
    obtain ⟨hx, hfront⟩ := List.forall_mem_cons.1 hwait
    rw [List.length_cons, Nat.add_right_comm, List.cons_append, rotate_cons, if_neg hx,
      List.append_assoc, ih hfront, List.append_assoc]
    rfl

/-- While members wait none is taken. -/
theorem rotate_wait (hwait : ∀ x ∈ front, R.turns x ≠ 0) (hfuel : fuel ≤ front.length)
    (back : List α) : R.rotate fuel (front ++ back) = none := by
  induction front generalizing fuel back with
  | nil =>
    rw [Nat.le_zero.1 hfuel]
    rfl
  | cons x front ih =>
    obtain ⟨hx, hfront⟩ := List.forall_mem_cons.1 hwait
    cases fuel with
    | zero => rfl
    | succ fuel =>
      rw [List.cons_append, rotate_cons, if_neg hx, List.append_assoc]
      exact ih hfront (Nat.le_of_succ_le_succ hfuel) _

/-- The first of the members that wait for the fewest turns, `m` of them. -/
structure Foremost (R : Rota α κ) (m : Nat) (before : List α) (x : α) (after : List α) :
    Prop where
  turns : R.turns x = m
  more : ∀ y ∈ before, m < R.turns y
  least : ∀ y ∈ after, m ≤ R.turns y

theorem Foremost.tick (h : R.Foremost (m + 1) before x after) :
    R.Foremost m (before.map R.tick) (R.tick x) (after.map R.tick) where
  turns := by rw [R.turns_tick, h.turns, Nat.add_sub_cancel]
  more := by
    rw [List.forall_mem_map]
    intro y hy
    have hlt := h.more y hy
    rw [R.turns_tick]
    omega
  least := by
    rw [List.forall_mem_map]
    intro y hy
    have hle := h.least y hy
    rw [R.turns_tick]
    omega

theorem Foremost.waits (h : R.Foremost (m + 1) before x after) :
    ∀ y ∈ before ++ x :: after, R.turns y ≠ 0 := by
  refine List.forall_mem_append.2 ⟨fun y hy => ?_, List.forall_mem_cons.2 ⟨?_, fun y hy => ?_⟩⟩
  · exact Nat.ne_of_gt (Nat.lt_of_le_of_lt (Nat.zero_le _) (h.more y hy))
  · rw [h.turns]
    exact Nat.succ_ne_zero m
  · exact Nat.ne_of_gt (Nat.lt_of_lt_of_le (Nat.succ_pos m) (h.least y hy))

theorem exists_foremost (R : Rota α κ) (hl : l ≠ []) :
    ∃ m before x after, l = before ++ x :: after ∧ R.Foremost m before x after := by
  induction l with
  | nil => exact absurd rfl hl
  | cons a l ih =>
    by_cases hnil : l = []
    · subst hnil
      exact ⟨R.turns a, [], a, [], rfl, rfl, List.forall_mem_nil _, List.forall_mem_nil _⟩
    · obtain ⟨m, before, x, after, rfl, h⟩ := ih hnil
      rcases Nat.lt_or_ge m (R.turns a) with hlt | hge
      · exact ⟨m, a :: before, x, after, rfl, h.turns,
          List.forall_mem_cons.2 ⟨hlt, h.more⟩, h.least⟩
      · refine ⟨R.turns a, [], a, before ++ x :: after, rfl, rfl, List.forall_mem_nil _, ?_⟩
        refine List.forall_mem_append.2 ⟨fun y hy => ?_, ?_⟩
        · exact Nat.le_trans hge (Nat.le_of_lt (h.more y hy))
        · refine List.forall_mem_cons.2 ⟨?_, fun y hy => Nat.le_trans hge (h.least y hy)⟩
          rwa [h.turns]

/-- The foremost member is taken in the round in which no turns are left for it to wait, behind
the members that came before it. -/
theorem Foremost.rotate (h : R.Foremost m before x after) (fuel : Nat) :
    R.rotate (m * (before ++ x :: after).length + before.length + (fuel + 1))
      (before ++ x :: after) =
      some (R.tick^[m] x, after.map R.tick^[m] ++ before.map R.tick^[m + 1]) := by
  induction m generalizing before x after with
  | zero =>
    have hwait : ∀ y ∈ before, R.turns y ≠ 0 := fun y hy => Nat.ne_of_gt (h.more y hy)
    rw [Nat.zero_mul, Nat.zero_add, rotate_pass hwait, List.cons_append, rotate_cons,
      if_pos h.turns]
    simp only [Function.iterate_succ, Function.iterate_zero, List.map_id, id_eq, Function.id_comp]
  | succ m ih =>
    have hround := rotate_pass h.waits
      (m * (before ++ x :: after).length + before.length + (fuel + 1)) []
    have hrest := ih h.tick
    rw [← List.map_cons, ← List.map_append, List.length_map, List.length_map, List.map_map,
      List.map_map] at hrest
    rw [List.nil_append, List.append_nil] at hround
    rw [Nat.succ_mul, Nat.add_comm (m * _), Nat.add_assoc, Nat.add_assoc, ← Nat.add_assoc (m * _),
      hround]
    exact hrest

/-- Before that no member is taken. -/
theorem Foremost.rotate_none (h : R.Foremost m before x after)
    (hfuel : fuel ≤ m * (before ++ x :: after).length + before.length) :
    R.rotate fuel (before ++ x :: after) = none := by
  induction m generalizing fuel before x after with
  | zero =>
    rw [Nat.zero_mul, Nat.zero_add] at hfuel
    exact rotate_wait (fun y hy => Nat.ne_of_gt (h.more y hy)) hfuel _
  | succ m ih =>
    rcases Nat.le_total fuel (before ++ x :: after).length with hle | hge
    · rw [← List.append_nil (before ++ x :: after)]
      exact rotate_wait h.waits hle []
    · obtain ⟨fuel, rfl⟩ := Nat.exists_eq_add_of_le hge
      have hround := rotate_pass h.waits fuel []
      rw [List.nil_append, List.append_nil, List.map_append, List.map_cons] at hround
      rw [Nat.succ_mul] at hfuel
      rw [hround]
      apply ih h.tick
      rw [← List.map_cons, ← List.map_append, List.length_map, List.length_map]
      omega

theorem rotate_forall {P : α → Prop} (htick : ∀ a, P a → P (R.tick a)) (hl : ∀ x ∈ l, P x)
    (h : R.rotate fuel l = some (a, l')) : ∀ x ∈ l', P x := by
  induction fuel generalizing l with
  | zero => cases h
  | succ fuel ih =>
    cases l with
    | nil => cases h
    | cons b l =>
      obtain ⟨hb, hl'⟩ := List.forall_mem_cons.1 hl
      rw [rotate_cons] at h
      split_ifs at h
      · cases h
        exact hl'
      · refine ih (List.forall_mem_append.2 ⟨hl', ?_⟩) h
        rw [List.forall_mem_singleton]
        exact htick b hb

/-- No member waits for more than its full number of turns. -/
def Within (R : Rota α κ) (l : List α) : Prop := ∀ x ∈ l, R.turns x ≤ R.full (R.key x)

theorem Takes.waits (h : R.Takes l as l') (hw : R.Waits k l.length m l) (hm : m < as.length) :
    k ∈ as.map R.key := by
  induction h generalizing m with
  | nil => exact absurd hm (Nat.not_lt_zero m)
  | @cons fuel l a l₁ as l' hr _ ih =>
    rw [List.map_cons, List.mem_cons]
    rcases hw.rotate rfl hr with ha | ⟨m', rfl, hw'⟩
    · exact .inl ha.symm
    · have hlen : (l₁ ++ [R.renew a]).length = l.length := by
        rw [List.length_append, List.length_singleton, rotate_length hr]
      refine .inr (ih (m := m') ?_ ?_)
      · rw [hlen]
        exact hw'.append _
      · rw [List.length_cons] at hm
        omega

/-- Every member is taken again within its full number of rounds and one more. -/
theorem Takes.mem (h : R.Takes l as l') (hl : R.Within l) (hx : x ∈ l)
    (hlen : l.length * (R.full (R.key x) + 1) ≤ as.length) : R.key x ∈ as.map R.key := by
  obtain ⟨before, after, hsplit⟩ := List.append_of_mem hx
  have hbefore : before.length ≤ l.length - 1 := by
    rw [hsplit, List.length_append, List.length_cons]
    omega
  apply h.waits (m := before.length + R.turns x * (l.length - 1))
  · exact ⟨before, x, after, hsplit, rfl, Nat.le_refl _⟩
  · apply Nat.lt_of_lt_of_le _ hlen
    calc before.length + R.turns x * (l.length - 1)
      _ ≤ (l.length - 1) + R.full (R.key x) * (l.length - 1) :=
        Nat.add_le_add hbefore (Nat.mul_le_mul_right _ (hl x hx))
      _ = (l.length - 1) * (R.full (R.key x) + 1) := by
        rw [Nat.mul_succ, Nat.add_comm, Nat.mul_comm]
      _ < l.length * (R.full (R.key x) + 1) :=
        Nat.mul_lt_mul_of_pos_right (Nat.sub_lt (List.length_pos_of_mem hx) Nat.one_pos)
          (Nat.succ_pos _)

theorem Takes.keys (h : R.Takes l as l') : (l'.map R.key).Perm (l.map R.key) := by
  induction h with
  | nil => exact .refl _
  | cons hr _ ih =>
    refine ih.trans (List.Perm.trans ?_ (rotate_keys hr).symm)
    rw [List.map_append, List.map_singleton, R.key_renew]
    exact List.perm_append_singleton ..

/-- Members that need not wait are all taken once in a round. -/
theorem Takes.round (h : R.Takes l as l') (hl : R.Within l) (hnodup : (l.map R.key).Nodup)
    (hfull : ∀ x ∈ l, R.full (R.key x) = 0) (hlen : as.length = l.length) :
    (l.map R.key).Perm (as.map R.key) := by
  have hsub : l.map R.key ⊆ as.map R.key := by
    intro k hk
    obtain ⟨y, hy, rfl⟩ := List.mem_map.1 hk
    apply h.mem hl hy (Nat.le_of_eq ?_)
    rw [hfull y hy, Nat.zero_add, Nat.mul_one, hlen]
  apply (List.subperm_of_subset hnodup hsub).perm_of_length_le (Nat.le_of_eq ?_)
  rw [List.length_map, List.length_map, hlen]

end Rota
end Tupai.Lib
