import Mathlib.Data.List.Nodup
import Tupai.Lib.Owned
import Tupai.Vector

namespace Tupai
open Lib
set_option autoImplicit true

/-- The values of the types: items, and lists of values for the vectors. -/
inductive Val (α : Type) where
  | item (a : α)
  | list (vals : List (Val α))

namespace Store

variable {ι α : Type}

/-- The objects in `n` slots of an array, from index `i` on. -/
def items (s : Store ι α) (arr : Option Nat) (i n : Nat) : List (Obj α) :=
  (List.range' i n).map fun j => s.objs (.slot arr j)

/-- A vector with its value and with the blocks that it owns, where `R` says the same of its
elements. -/
inductive Holds (s : Store ι α) (R : Obj α → Val α → List Nat → Prop) :
    VectorT → List (Val α) → List Nat → Prop where
  | null : Holds s R .null [] []
  | block : s.live b = some cap → size ≤ cap → Owned R (s.items (some b) 0 size) vals own →
      Holds s R ⟨some b, cap, size⟩ vals (b :: own)

/-- An object of a type of depth `d` has this value, and owns these blocks. -/
def Rep (s : Store ι α) : (d : Nat) → Obj α → Val α → (own : List Nat) → Prop
  | 0, o, val, own => ∃ a, o = .item a ∧ val = .item a ∧ own = []
  | d + 1, o, val, own => ∃ v vals, o = .vector v ∧ val = .list vals ∧ Holds s (Rep s d) v vals own

variable {s s' s'' : Store ι α} {o : Obj α} {val : Val α} {own own' : List Nat}

theorem items_succ (s : Store ι α) (arr : Option Nat) (i n : Nat) :
    s.items arr i (n + 1) = s.objs (.slot arr i) :: s.items arr (i + 1) n := by
  rw [items, List.range'_succ, List.map_cons]
  rfl

theorem items_concat (s : Store ι α) (arr : Option Nat) (n : Nat) :
    s.items arr 0 (n + 1) = s.items arr 0 n ++ [s.objs (.slot arr n)] := by
  rw [items, List.range'_concat, List.map_append, Nat.zero_add, Nat.one_mul]
  rfl

theorem items_congr (h : ∀ j, i ≤ j → j < i + n → s'.objs (.slot arr j) = s.objs (.slot arr j)) :
    s'.items arr i n = s.items arr i n := by
  apply List.map_congr_left
  intro j hj
  rw [List.mem_range'_1] at hj
  exact h j hj.1 hj.2

/-- The blocks are live, or not, as before, and hold what they held. -/
def Kept (s s' : Store ι α) (own : List Nat) : Prop :=
  ∀ b ∈ own, s'.live b = s.live b ∧ ∀ i, s'.objs (.slot (some b) i) = s.objs (.slot (some b) i)

theorem Kept.mono (h : Kept s s' own) (hsub : own' ⊆ own) : Kept s s' own' :=
  fun b hb => h b (hsub hb)

/-- What an object stands for depends on nothing but the blocks that it owns. -/
theorem Rep.frame (h : Rep s d o val own) (hk : Kept s s' own) : Rep s' d o val own := by
  induction d generalizing o val own with
  | zero => exact h
  | succ d ih =>
    obtain ⟨v, vals, rfl, rfl, hv⟩ := h
    refine ⟨v, vals, rfl, rfl, ?_⟩
    cases hv with
    | null => exact .null
    | @block b cap size _ own hlive hle hitems =>
      have hb := hk b List.mem_cons_self
      refine .block (hb.1.trans hlive) hle ?_
      rw [items_congr fun j _ _ => hb.2 j]
      exact hitems.imp fun c v o ho hR => ih hR (hk.mono fun x hx => List.mem_cons_of_mem b (ho hx))

theorem Rep.live (h : Rep s d o val own) (hb : b ∈ own) : s.live b ≠ none := by
  induction d generalizing o val own with
  | zero =>
    obtain ⟨a, _, _, rfl⟩ := h
    cases hb
  | succ d ih =>
    obtain ⟨v, vals, _, _, hv⟩ := h
    cases hv with
    | null => cases hb
    | block hlive _ hitems =>
      rcases List.mem_cons.1 hb with rfl | hb
      · rw [hlive]
        exact Option.some_ne_none _
      · obtain ⟨c, v, o, hR, hb⟩ := hitems.mem hb
        exact ih hR hb

/-- No block is live that was not allocated yet. -/
def Fresh (s : Store ι α) : Prop := ∀ b, s.next ≤ b → s.live b = none

theorem Fresh.lt (h : s.Fresh) (hb : s.live b ≠ none) : b < s.next := by
  by_contra hge
  exact hb (h b (Nat.le_of_not_lt hge))

theorem Rep.lt (h : Rep s d o val own) (hf : s.Fresh) (hb : b ∈ own) : b < s.next :=
  hf.lt (h.live hb)

/-- A place in a block that was never allocated. -/
def New (s : Store ι α) (l : Loc ι) : Prop := ∃ b i, s.next ≤ b ∧ l = .slot (some b) i

theorem valid_slot (h : s.live b = some n) (hi : i < n) : s.Valid (.slot (some b) i) := by
  rwa [Valid, h]

theorem Valid.lt (h : s.Valid (.slot (some b) i)) (hf : s.Fresh) : b < s.next := by
  apply hf.lt
  intro hnone
  rw [Valid, hnone] at h
  exact Nat.not_lt_zero i h

theorem Valid.not_new (h : s.Valid l) (hf : s.Fresh) : ¬ s.New l := by
  rintro ⟨b, i, hb, rfl⟩
  exact Nat.not_lt.2 hb (h.lt hf)

/-- Between the two states nothing changed but what is at the places `W` and in blocks that are
new. The new blocks that are live are those in `own`. -/
structure Grown (s s' : Store ι α) (W : Loc ι → Prop) (own : List Nat) : Prop where
  next : s.next ≤ s'.next
  kept : ∀ b < s.next, s'.live b = s.live b
  objs : ∀ l, ¬ s.New l → ¬ W l → s'.objs l = s.objs l
  nodup : own.Nodup
  live_iff : ∀ b, s.next ≤ b → (s'.live b ≠ none ↔ b ∈ own)
  ge : ∀ b ∈ own, s.next ≤ b
  fresh : s'.Fresh

theorem Grown.lt (h : Grown s s' W own) (hb : b ∈ own) : b < s'.next :=
  h.fresh.lt ((h.live_iff b (h.ge b hb)).2 hb)

theorem Grown.valid (h : Grown s s' W own) (hf : s.Fresh) (hl : s.Valid l) : s'.Valid l := by
  cases l with
  | var => trivial
  | slot arr i =>
    cases arr with
    | none => exact hl.elim
    | some b =>
      rw [Valid, h.kept b (hl.lt hf)]
      exact hl

theorem Grown.refl (hf : s.Fresh) (W : Loc ι → Prop) : Grown s s W [] where
  next := Nat.le_refl _
  kept _ _ := rfl
  objs _ _ _ := rfl
  nodup := List.nodup_nil
  live_iff b hb := by
    rw [hf b hb]
    exact iff_of_false (fun h => h rfl) List.not_mem_nil
  ge _ hb := absurd hb List.not_mem_nil
  fresh := hf

theorem Grown.mono (h : Grown s s' W own) (hW : ∀ l, ¬ s.New l → W l → W' l) :
    Grown s s' W' own :=
  { h with objs := fun l hl hW' => h.objs l hl fun hw => hW' (hW l hl hw) }

theorem Grown.trans (h : Grown s s' W own) (h' : Grown s' s'' W' own')
    (hW' : ∀ l, ¬ s.New l → W' l → W l) : Grown s s'' W (own ++ own') where
  next := Nat.le_trans h.next h'.next
  kept b hb := by rw [h'.kept b (Nat.lt_of_lt_of_le hb h.next), h.kept b hb]
  objs l hl hW := by
    have hl' : ¬ s'.New l := fun ⟨b, i, hb, he⟩ => hl ⟨b, i, Nat.le_trans h.next hb, he⟩
    rw [h'.objs l hl' fun hw => hW (hW' l hl hw), h.objs l hl hW]
  nodup := by
    refine h.nodup.append h'.nodup fun b hb hb' => ?_
    exact Nat.not_lt.2 (h'.ge b hb') (h.lt hb)
  live_iff b hb := by
    rw [List.mem_append]
    rcases Nat.lt_or_ge b s'.next with hlt | hge
    · rw [h'.kept b hlt, h.live_iff b hb]
      exact (or_iff_left fun hb' => Nat.not_lt.2 (h'.ge b hb') hlt).symm
    · rw [h'.live_iff b hge]
      exact (or_iff_right fun hb' => Nat.not_lt.2 hge (h.lt hb')).symm
  ge b hb := by
    rcases List.mem_append.1 hb with hb | hb
    · exact h.ge b hb
    · exact Nat.le_trans h.next (h'.ge b hb)
  fresh := h'.fresh

theorem Grown.keeps (h : Grown s s' W own) (hlt : ∀ b ∈ own', b < s.next)
    (hW : ∀ b ∈ own', ∀ i, ¬ W (.slot (some b) i)) : Kept s s' own' := by
  intro b hb
  refine ⟨h.kept b (hlt b hb), fun i => h.objs _ ?_ (hW b hb i)⟩
  rintro ⟨b', _, hge, he⟩
  cases he
  exact Nat.not_lt.2 hge (hlt b hb)

theorem Rep.grown (h : Rep s d o val own) (hf : s.Fresh) (hg : Grown s s' W own')
    (hW : ∀ b ∈ own, ∀ i, ¬ W (.slot (some b) i)) : Rep s' d o val own :=
  h.frame (hg.keeps (fun _ hb => h.lt hf hb) hW)

theorem items_grown (h : Owned (Rep s d) (s.items arr i n) vals own) (hf : s.Fresh)
    (hg : Grown s s' W own') (hvalid : ∀ j < i + n, s.Valid (.slot arr j))
    (hslots : ∀ j, i ≤ j → j < i + n → ¬ W (.slot arr j))
    (hW : ∀ b ∈ own, ∀ j, ¬ W (.slot (some b) j)) :
    Owned (Rep s' d) (s'.items arr i n) vals own := by
  have hsame : s'.items arr i n = s.items arr i n :=
    items_congr fun j hi hj => hg.objs _ ((hvalid j hj).not_new hf) (hslots j hi hj)
  rw [hsame]
  exact h.imp fun c v o ho hR => hR.grown hf hg fun b hb => hW b (ho hb)

theorem Grown.new (hf : s.Fresh) (n : Nat) (W : Loc ι → Prop) :
    Grown s (s.new n) W [s.next] where
  next := Nat.le_succ _
  kept b hb := Function.update_of_ne (Nat.ne_of_lt hb) ..
  objs _ _ _ := rfl
  nodup := List.nodup_singleton _
  live_iff b hb := by
    rw [List.mem_singleton]
    dsimp only [Store.new]
    by_cases he : b = s.next
    · rw [he, Function.update_self]
      exact iff_of_true (Option.some_ne_none n) rfl
    · rw [Function.update_of_ne he, hf b hb]
      exact iff_of_false (fun h => h rfl) he
  ge b hb := Nat.le_of_eq (List.mem_singleton.1 hb).symm
  fresh b hb := by
    dsimp only [Store.new] at hb ⊢
    rw [Function.update_of_ne (Nat.ne_of_gt hb), hf b (Nat.le_of_succ_le hb)]

/-- The state after these blocks were freed. -/
def freed (s : Store ι α) (own : List Nat) : Store ι α :=
  { s with live := fun b => if b ∈ own then none else s.live b }

theorem freed_live (s : Store ι α) (h : b ∉ own) : (s.freed own).live b = s.live b := if_neg h

theorem freed_nil (s : Store ι α) : s.freed [] = s := by
  have hlive : (fun b => if b ∈ ([] : List Nat) then none else s.live b) = s.live :=
    funext fun b => if_neg List.not_mem_nil
  rw [freed, hlive]

theorem freed_append (s : Store ι α) (own own' : List Nat) :
    (s.freed own).freed own' = s.freed (own ++ own') := by
  rw [freed, freed, freed, Store.mk.injEq]
  refine ⟨rfl, funext fun b => ?_, rfl⟩
  simp only [List.mem_append]
  split_ifs <;> tauto

theorem freed_delete (h : s.live b ≠ none) (hb : b ∉ own) :
    (s.freed own).delete (some b) = .ok (s.freed (b :: own)) := by
  rw [delete, freed_live s hb, if_neg h, freed, Except.ok.injEq, freed, Store.mk.injEq]
  refine ⟨rfl, funext fun c => ?_, rfl⟩
  simp only [List.mem_cons]
  by_cases hc : c = b
  · rw [hc, Function.update_self, if_pos (.inl rfl)]
  · rw [Function.update_of_ne hc]
    simp only [hc, false_or]

theorem Kept.freed (s : Store ι α) (h : ∀ b ∈ own', b ∉ own) : Kept s (s.freed own) own' :=
  fun b hb => ⟨freed_live s (h b hb), fun _ => rfl⟩

theorem Valid.freed (h : s.Valid l) (hb : ∀ b ∈ own, ∀ i, l ≠ .slot (some b) i) :
    (s.freed own).Valid l := by
  rcases l with x | ⟨_ | b, i⟩
  · trivial
  · exact h.elim
  · rw [Valid, freed_live s fun hmem => hb b hmem i rfl]
    exact h

variable [DecidableEq ι]

theorem Grown.set (hf : s.Fresh) (l : Loc ι) (o : Obj α) : Grown s (s.set l o) (· = l) [] :=
  { Grown.refl hf (· = l) with
    objs := fun _ _ hne => Function.update_of_ne hne .. }

/-- An object that can be copied to a place: one that is neither the object itself nor owned by
it. -/
structure Copyable (s : Store ι α) (d : Nat) (dst src : Loc ι) (val : Val α) (own : List Nat) :
    Prop where
  rep : Rep s d (s.objs src) val own
  fresh : s.Fresh
  readable : s.Valid src
  writable : s.Valid dst
  ne : dst ≠ src
  apart : ∀ b ∈ own, ∀ i, dst ≠ .slot (some b) i

/-- Copying makes an object of the same value that owns new blocks, and no others are made. -/
def Copies (ι α : Type) [DecidableEq ι] (d : Nat) : Prop :=
  ∀ (s : Store ι α) dst src val own, Copyable s d dst src val own →
    ∃ s' own', copy d dst src s = .ok s' ∧ Grown s s' (· = dst) own' ∧
      Rep s' d (s'.objs dst) val own'

/-- The elements of an array from index `i` on can be copied to the array `b`. -/
structure Copying (s : Store ι α) (d : Nat) (src : Option Nat) (b i n : Nat) (vals : List (Val α))
    (own : List Nat) : Prop where
  items : Owned (Rep s d) (s.items src i n) vals own
  fresh : s.Fresh
  readable : ∀ j < i + n, s.Valid (.slot src j)
  writable : ∀ j < i + n, s.Valid (.slot (some b) j)
  ne : src ≠ some b
  apart : b ∉ own

theorem Copying.next (h : Copying s d src b i (n + 1) vals own) (hcopy : Copies ι α d) :
    ∃ s' val o vals' os, copy d (.slot (some b) i) (.slot src i) s = .ok s' ∧ vals = val :: vals' ∧
      Grown s s' (· = .slot (some b) i) o ∧ Rep s' d (s'.objs (.slot (some b) i)) val o ∧
      Copying s' d src b (i + 1) n vals' os := by
  have hitems := h.items
  have hapart := h.apart
  rw [items_succ] at hitems
  cases hitems with
  | @cons _ val o _ vals os hval hrest =>
    rw [List.mem_append, not_or] at hapart
    obtain ⟨s', o', hs', hg, hrep⟩ := hcopy s (.slot (some b) i) (.slot src i) val o
      { rep := hval
        fresh := h.fresh
        readable := h.readable i (by omega)
        writable := h.writable i (by omega)
        ne := fun he => h.ne (by cases he; rfl)
        apart := fun c hc j he => hapart.1 (by cases he; exact hc) }
    refine ⟨s', val, o', vals, os, hs', rfl, hg, hrep, ?_, hg.fresh, fun j hj => ?_, fun j hj => ?_,
      h.ne, hapart.2⟩
    · refine items_grown hrest h.fresh hg (fun j hj => h.readable j (by omega)) ?_ ?_
      · exact fun j _ _ he => h.ne (Loc.slot.inj he).1
      · rintro c hc j he
        cases he
        exact hapart.2 hc
    · exact hg.valid h.fresh (h.readable j (by omega))
    · exact hg.valid h.fresh (h.writable j (by omega))

theorem copyLoop_spec (hcopy : Copies ι α d) (h : Copying s d src b i n vals own) :
    ∃ s' own', copyLoop (copy d) (some b) src n i s = .ok s' ∧
      Grown s s' (fun l => ∃ j, i ≤ j ∧ l = .slot (some b) j) own' ∧
      Owned (Rep s' d) (s'.items (some b) i n) vals own' := by
  induction n generalizing s i vals own with
  | zero =>
    cases h.items
    exact ⟨s, [], rfl, .refl h.fresh _, .nil⟩
  | succ n ih =>
    obtain ⟨s₁, val, o₁, vals, os, hs₁, rfl, hg₁, hrep₁, h₁⟩ := h.next hcopy
    obtain ⟨s₂, o₂, hs₂, hg₂, hitems₂⟩ := ih h₁
    have hvalid := h.writable i (by omega)
    have hhead : Rep s₂ d (s₂.objs (.slot (some b) i)) val o₁ := by
      rw [hg₂.objs]
      · refine hrep₁.grown hg₁.fresh hg₂ fun c hc k => ?_
        rintro ⟨j, _, he⟩
        cases he
        exact Nat.not_lt.2 (hg₁.ge b hc) (hvalid.lt h.fresh)
      · exact (hg₁.valid h.fresh hvalid).not_new hg₁.fresh
      · rintro ⟨j, hj, he⟩
        cases he
        omega
    refine ⟨s₂, o₁ ++ o₂, ?_, (hg₁.mono ?_).trans hg₂ ?_, ?_⟩
    · rw [copyLoop, hs₁]
      exact hs₂
    · rintro _ _ rfl
      exact ⟨i, Nat.le_refl i, rfl⟩
    · rintro _ _ ⟨j, hj, rfl⟩
      exact ⟨j, by omega, rfl⟩
    · rw [items_succ]
      exact .cons hhead hitems₂

/-- Copying an empty vector makes a null one, also of itself. -/
theorem copy_null (hsrc : s.Valid src) (hdst : s.Valid dst) (ho : s.objs src = .vector v)
    (hv : v.csize = 0) : copy (d + 1) dst src s = .ok (s.set dst (.vector .null)) := by
  have hthis := loadVector_ok ((valid_set s dst dst (.vector .null)).2 hdst) (set_self ..)
  have hread : ∃ w, (s.set dst (.vector .null)).objs src = .vector w := by
    by_cases he : src = dst
    · rw [he]
      exact ⟨_, set_self ..⟩
    · rw [set_of_ne he]
      exact ⟨v, ho⟩
  obtain ⟨w, hw⟩ := hread
  have hother := loadVector_ok ((valid_set s dst src (.vector .null)).2 hsrc) hw
  rw [copy, loadVector_ok hsrc ho, ok_bind, if_neg (by omega), store_ok hdst]
  simp only [ok_bind, hthis, hother]
  rfl

def allocated (s : Store ι α) (this : Loc ι) (cap size : Nat) : Store ι α :=
  (s.new cap).set this (.vector ⟨some s.next, cap, size⟩)

theorem allocated_grown (hf : s.Fresh) (this : Loc ι) (cap size : Nat) :
    Grown s (s.allocated this cap size) (· = this) [s.next] := by
  have hnew := Grown.new hf cap (· = this)
  exact hnew.trans (.set hnew.fresh this _) fun _ _ he => he

theorem allocated_live (s : Store ι α) (this : Loc ι) (cap size : Nat) :
    (s.allocated this cap size).live s.next = some cap := Function.update_self ..

theorem allocate_ok (hf : s.Fresh) (h : s.Valid this) (cap size : Nat) :
    s.allocate this cap size = .ok (s.allocated this cap size) :=
  store_ok ((Grown.new hf cap (· = this)).valid hf h) _

theorem refill_spec (hcopy : Copies ι α d) (hf : s.Fresh) (hthis : s.Valid this)
    (hitems : Owned (Rep s d) (s.items src 0 n) vals own)
    (hsrc : ∀ j < n, s.Valid (.slot src j)) (hnew : src ≠ some s.next)
    (hne : ∀ j, this ≠ .slot src j) (hapart : ∀ b ∈ own, ∀ i, this ≠ .slot (some b) i)
    (hcap : n ≤ cap) :
    ∃ s' own', copyLoop (copy d) (some s.next) src n 0 (s.allocated this cap n) = .ok s' ∧
      Grown s s' (· = this) (s.next :: own') ∧
      s'.objs this = .vector ⟨some s.next, cap, n⟩ ∧
      Holds s' (Rep s' d) ⟨some s.next, cap, n⟩ vals (s.next :: own') := by
  have hg := allocated_grown hf this cap n
  have hlive := allocated_live s this cap n
  have hitems' := items_grown hitems hf hg (fun j hj => hsrc j (by omega))
    (fun j _ _ he => hne j he.symm) fun b hb i he => hapart b hb i he.symm
  have hdst : ∀ j < n, (s.allocated this cap n).Valid (.slot (some s.next) j) :=
    fun j hj => valid_slot hlive (Nat.lt_of_lt_of_le hj hcap)
  have hout : s.next ∉ own := by
    intro hb
    obtain ⟨c, v, o, hR, ho⟩ := hitems.mem hb
    exact Nat.lt_irrefl _ (hR.lt hf ho)
  obtain ⟨s', own', hs', hg', hdone⟩ := copyLoop_spec hcopy
    { items := hitems'
      fresh := hg.fresh
      readable := fun j hj => hg.valid hf (hsrc j (by omega))
      writable := fun j hj => hdst j (by omega)
      ne := hnew
      apart := hout }
  have hbound : s.next < (s.allocated this cap n).next := Nat.lt_succ_self _
  have hkeep : ¬ ∃ j, 0 ≤ j ∧ this = .slot (some s.next) j := by
    rintro ⟨j, _, rfl⟩
    exact Nat.lt_irrefl _ (hthis.lt hf)
  refine ⟨s', own', hs', hg.trans hg' ?_, ?_, ?_⟩
  · rintro _ hold ⟨j, _, rfl⟩
    exact absurd ⟨s.next, j, Nat.le_refl _, rfl⟩ hold
  · rw [hg'.objs this ((hg.valid hf hthis).not_new hg.fresh) hkeep]
    exact set_self ..
  · exact .block ((hg'.kept _ hbound).trans hlive) hcap hdone

theorem copy_block (h : Copyable s (d + 1) dst src val own)
    (ho : s.objs src = .vector ⟨some b, cap, size⟩) (hpos : 0 < size) :
    copy (d + 1) dst src s =
      copyLoop (copy d) (some s.next) (some b) size 0 (s.allocated dst cap size) := by
  have hg := allocated_grown h.fresh dst cap size
  have hthis := loadVector_ok (hg.valid h.fresh h.writable) (set_self ..)
  have hother := loadVector_ok (hg.valid h.fresh h.readable) ((set_of_ne h.ne.symm _).trans ho)
  rw [copy, loadVector_ok h.readable ho, ok_bind, if_pos hpos, allocate_ok h.fresh h.writable]
  simp only [ok_bind, hthis, hother]

theorem copy_spec (d : Nat) : Copies ι α d := by
  induction d with
  | zero =>
    intro s dst src val own h
    obtain ⟨a, ho, rfl, rfl⟩ := h.rep
    refine ⟨s.set dst (.item a), [], ?_, .set h.fresh dst _, a, set_self .., rfl, rfl⟩
    rw [copy, load_ok h.readable, ho]
    exact store_ok h.writable _
  | succ d ih =>
    intro s dst src val own h
    obtain ⟨v, vals, ho, rfl, hv⟩ := h.rep
    have hnull (hsize : v.csize = 0) (hvals : vals = []) : ∃ s' own',
        copy (d + 1) dst src s = .ok s' ∧ Grown s s' (· = dst) own' ∧
          Rep s' (d + 1) (s'.objs dst) (.list vals) own' := by
      refine ⟨_, [], copy_null h.readable h.writable ho hsize, .set h.fresh dst _, .null, [],
        set_self .., by rw [hvals], .null⟩
    cases hv with
    | null => exact hnull rfl rfl
    | @block b cap size _ own hlive hle hitems =>
      rcases Nat.eq_zero_or_pos size with rfl | hpos
      · cases hitems
        exact hnull rfl rfl
      · have hb : b < s.next := h.rep.lt h.fresh List.mem_cons_self
        obtain ⟨s', own', hs', hg, hobj, hholds⟩ := refill_spec ih h.fresh h.writable hitems
          (fun j hj => valid_slot hlive (Nat.lt_of_lt_of_le hj hle))
          (fun he => Nat.ne_of_lt hb (Option.some.inj he))
          (h.apart b List.mem_cons_self)
          (fun c hc => h.apart c (List.mem_cons_of_mem b hc)) hle
        exact ⟨s', s.next :: own', (copy_block h ho hpos).trans hs', hg, _, _, hobj, rfl, hholds⟩

/-- Destroying an object frees just the blocks that it owns. -/
def Destroys (ι α : Type) [DecidableEq ι] (d : Nat) : Prop :=
  ∀ (s : Store ι α) l val own, Rep s d (s.objs l) val own → s.Valid l → own.Nodup →
    destroy d l s = .ok (s.freed own)

theorem destroyLoop_spec (hd : Destroys ι α d) (hitems : Owned (Rep s d) (s.items arr i n) vals own)
    (hvalid : ∀ j < i + n, s.Valid (.slot arr j)) (hnodup : own.Nodup)
    (hne : ∀ b ∈ own, arr ≠ some b) :
    destroyLoop (destroy d) arr n i s = .ok (s.freed own) := by
  induction n generalizing s i vals own with
  | zero =>
    cases hitems
    rw [freed_nil]
    rfl
  | succ n ih =>
    rw [items_succ] at hitems
    cases hitems with
    | @cons _ val o _ vals os hval hrest =>
      obtain ⟨ho, hos, hdisjoint⟩ := List.nodup_append'.1 hnodup
      have hslot (j : Nat) : ∀ b ∈ o, ∀ i, Loc.slot arr j ≠ (.slot (some b) i : Loc ι) := by
        rintro b hb _ he
        cases he
        exact hne b (List.mem_append_left os hb) rfl
      have hitems₁ : Owned (Rep (s.freed o) d) ((s.freed o).items arr (i + 1) n) vals os := by
        refine hrest.imp fun c v o' ho' hR => hR.frame (.freed s fun b hb hb' => ?_)
        exact hdisjoint hb' (ho' hb)
      rw [destroyLoop, hd s _ val o hval (hvalid i (by omega)) ho, ok_bind,
        ih hitems₁ (fun j hj => (hvalid j (by omega)).freed (hslot j)) hos
          fun b hb => hne b (List.mem_append_right o hb), freed_append]

theorem destroy_spec (d : Nat) : Destroys ι α d := by
  induction d with
  | zero =>
    intro s l val own h _ _
    obtain ⟨a, _, _, rfl⟩ := h
    rw [freed_nil]
    rfl
  | succ d ih =>
    intro s l val own h hl hnodup
    obtain ⟨v, vals, ho, rfl, hv⟩ := h
    rw [destroy, loadVector_ok hl ho, ok_bind]
    cases hv with
    | null =>
      rw [freed_nil]
      rfl
    | @block b cap size _ own hlive hle hitems =>
      obtain ⟨hb, hown⟩ := List.nodup_cons.1 hnodup
      have hvalid : ∀ j < 0 + size, s.Valid (.slot (some b) j) :=
        fun j hj => valid_slot hlive (by omega)
      rw [destroyLoop_spec ih hitems hvalid hown, ok_bind]
      · exact freed_delete (by rw [hlive]; exact Option.some_ne_none cap) hb
      · rintro c hc he
        cases he
        exact hb hc

end Store

end Tupai
