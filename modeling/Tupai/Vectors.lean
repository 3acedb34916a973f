import Mathlib.Logic.Equiv.Basic
import Tupai.Lib.Transition
import Tupai.Resizing

namespace Tupai
open Lib
set_option autoImplicit true

def Val.get : Val α → List Nat → Option (Val α)
  | val, [] => some val
  | .list vals, i :: path => (vals[i]?).bind fun val => val.get path
  | .item _, _ :: _ => none

/-- The values of the variables. A variable without an object has none. -/
abbrev Values (ι α : Type) := ι → Option (Val α)

namespace Values

variable {ι α : Type} [DecidableEq ι]

def get (m : Values ι α) (p : Place ι) : Option (Val α) := (m p.var).bind fun val => val.get p.path

def set (m : Values ι α) (x : ι) (val : Val α) : Values ι α := Function.update m x (some val)

theorem set_self (m : Values ι α) (x : ι) (val : Val α) : m.set x val x = some val :=
  Function.update_self ..

theorem set_of_ne (m : Values ι α) (h : y ≠ x) (val : Val α) : m.set x val y = m y :=
  Function.update_of_ne h ..

/-- What the steps of a program are to do, where the types agree, the constructed variables are new
and the others exist. A list is empty once it was moved to another variable. -/
inductive Means (ty : ι → Nat) (m : Values ι α) : VectorOp ι α → Values ι α → Prop where
  | item : ty x = 0 → Means ty m (.item x a) (m.set x (.item a))
  | construct : 0 < ty x → m x = none → Means ty m (.construct x) (m.set x (.list []))
  | copyConstruct : ty p.var = ty x + p.path.length → m x = none → m.get p = some val →
      Means ty m (.copyConstruct x p) (m.set x val)
  | moveConstruct : 0 < ty x → ty y = ty x → m x = none → m y = some val →
      Means ty m (.moveConstruct x y) ((m.set x val).set y (.list []))
  | copyAssign : ty p.var = ty x + p.path.length → m x = some old → m.get p = some val →
      Means ty m (.copyAssign x p) (m.set x val)
  | moveAssign : 0 < ty x → ty y = ty x → x ≠ y → m x = some old → m y = some val →
      Means ty m (.moveAssign x y) ((m.set x val).set y (.list []))
  | moveSelf : 0 < ty x → m x = some val → Means ty m (.moveAssign x x) m
  | push : ty p.var + 1 = ty x + p.path.length → m x = some (.list vals) → m.get p = some val →
      Means ty m (.push x p) (m.set x (.list (vals ++ [val])))
  | pop : ty x = ty r + 1 → m x = some (.list (vals ++ [val])) → m r = none →
      Means ty m (.pop x r) ((m.set r val).set x (.list vals))
  | destruct : m x = some val → Means ty m (.destruct x) (Function.update m x none)

end Values

namespace Store

variable {ι α : Type}

variable {s s' : Store ι α} {val : Val α}

theorem locate_spec {l : Loc ι} (h : Rep s (d + path.length) (s.objs l) val own)
    (hl : s.Valid l) (hw : val.get path = some w) :
    ∃ src o, s.locate l path = .ok src ∧ s.Valid src ∧ Rep s d (s.objs src) w o ∧ o ⊆ own ∧
      (path = [] ∧ src = l ∨ ∃ b ∈ own, ∃ i, src = .slot (some b) i) := by
  induction path generalizing l val own with
  | nil =>
    cases hw
    exact ⟨l, own, rfl, hl, h, List.Subset.refl own, .inl ⟨rfl, rfl⟩⟩
  | cons i path ih =>
    obtain ⟨v, vals, ho, rfl, hv⟩ := h
    obtain ⟨elem, hi, hw⟩ := Option.bind_eq_some_iff.1 hw
    obtain ⟨b, os, o, harr, rfl, hsub, _, hvalid, hrep⟩ := hv.element hi
    obtain ⟨src, o', hsrc, hvalid', hrep', hsub', hplace⟩ := ih hrep hvalid hw
    refine ⟨src, o', ?_, hvalid', hrep', ?_, .inr ?_⟩
    · rw [locate, loadVector_ok hl ho, ok_bind, harr]
      exact hsrc
    · exact fun c hc => List.mem_cons_of_mem b (hsub (hsub' hc))
    · rcases hplace with ⟨_, rfl⟩ | ⟨c, hc, j, rfl⟩
      · exact ⟨b, List.mem_cons_self, i, rfl⟩
      · exact ⟨c, List.mem_cons_of_mem b (hsub hc), j, rfl⟩

theorem IsVector.inside (hv : IsVector s d x v vals own) (hi : vals[i]? = some val) :
    ∃ src o, s.locate (.var x) [i] = .ok src ∧ Source s d x src val o ∧
      src ≠ .slot v.arr v.csize ∧ ∀ b, v.arr = some b → b ∉ o := by
  obtain ⟨b, os, o, harr, rfl, hsub, hlt, hvalid, hrep⟩ := hv.holds.element hi
  have hb : b ∉ os := (List.nodup_cons.1 hv.nodup).1
  refine ⟨_, o, ?_, ⟨hrep, hvalid, nofun⟩, ?_, ?_⟩
  · rw [locate, hv.load, ok_bind, harr]
    rfl
  · exact fun he => Nat.ne_of_lt hlt (Loc.slot.inj he).2
  · rintro c hc hco
    cases harr.symm.trans hc
    exact hb (hsub hco)

/-- Each variable has its value and owns its blocks alone, and just the owned blocks are live. -/
structure OwnsExactly (ty : ι → Nat) (s : Store ι α) (m : Values ι α) (own : ι → List Nat) :
    Prop where
  rep : ∀ x val, m x = some val → Rep s (ty x) (s.objs (.var x)) val (own x)
  empty : ∀ x, m x = none → own x = []
  nodup : ∀ x, (own x).Nodup
  disjoint : ∀ x y, x ≠ y → (own x).Disjoint (own y)
  live : ∀ b, s.live b ≠ none ↔ ∃ x, b ∈ own x

/-- The steps that lose nothing. A vector that is copied to has no array, and one that is moved to
has no elements with arrays, and none at all if it is moved to itself. A vector whose elements go to
another array has none with arrays but the first one, which `delete old` takes for an element even
if there is none, and what is pushed then is not from that array. -/
def Spares (ty : ι → Nat) (s : Store ι α) : VectorOp ι α → Prop
  | .copyAssign x _ => (s.objs (.var x)).Bare
  | .moveAssign x y => ∀ v, s.objs (.var x) = .vector v →
      (∀ o ∈ s.items v.arr 0 v.csize, o.Bare) ∧ (x = y → v.csize = 0)
  | .push x p => ∀ v, s.objs (.var x) = .vector v → v.ccapacity ≤ v.csize →
      p.var ≠ x ∧ (v.arr = none ∨ ty x = 1 ∨ 0 < v.csize) ∧ s.Single v
  | .pop x _ => ∀ v, s.objs (.var x) = .vector v →
      if v.csize - 1 ≤ v.ccapacity / 2 then s.Single v
      else (s.objs (.slot v.arr (v.csize - 1))).Bare
  | _ => True

structure Sound (ty : ι → Nat) (s : Store ι α) (m : Values ι α) (own : ι → List Nat) : Prop
    extends OwnsExactly ty s m own where
  fresh : s.Fresh

variable {m m' : Values ι α} {own : ι → List Nat} {o : List Nat}

theorem Sound.lt (h : Sound ty s m own) (hb : b ∈ own x) : b < s.next :=
  h.fresh.lt ((h.live b).2 ⟨x, hb⟩)

theorem Sound.locate (h : Sound ty s m own) (hp : m.get p = some val)
    (hty : ty p.var = d + p.path.length) :
    ∃ src o, s.locate (.var p.var) p.path = .ok src ∧ s.Valid src ∧ Rep s d (s.objs src) val o ∧
      o ⊆ own p.var ∧
      (p.path = [] ∧ src = .var p.var ∨ ∃ b ∈ own p.var, ∃ i, src = .slot (some b) i) := by
  obtain ⟨whole, hx, hval⟩ := Option.bind_eq_some_iff.1 hp
  have hrep := h.rep p.var whole hx
  rw [hty] at hrep
  exact locate_spec hrep (valid_var s p.var) hval

theorem Sound.start : Sound ty start (fun _ => none : Values ι α) fun _ => [] where
  rep _ _ := nofun
  empty _ _ := rfl
  nodup _ := List.nodup_nil
  disjoint _ _ _ := List.disjoint_nil_left _
  live _ := iff_of_false (fun h => h rfl) fun ⟨_, hb⟩ => List.not_mem_nil hb
  fresh _ _ := rfl

theorem Sound.isVector (h : Sound ty s m own) (hx : m x = some (.list vals)) :
    ∃ d v, ty x = d + 1 ∧ IsVector s d x v vals (own x) := by
  have hrep := h.rep x _ hx
  cases hd : ty x with
  | zero =>
    rw [hd] at hrep
    obtain ⟨a, _, hval, _⟩ := hrep
    cases hval
  | succ d =>
    rw [hd] at hrep
    obtain ⟨v, _, hobj, hval, hholds⟩ := hrep
    cases hval
    exact ⟨d, v, rfl, h.fresh, hobj, hholds, h.nodup x⟩

theorem Sound.list (h : Sound ty s m own) (hx : m x = some val) (hpos : 0 < ty x) :
    ∃ vals, val = .list vals := by
  have hrep := h.rep x val hx
  rw [← Nat.succ_pred_eq_of_pos hpos] at hrep
  obtain ⟨_, vals, _, hval, _⟩ := hrep
  exact ⟨vals, hval⟩

theorem Sound.outside (h : Sound ty s m own) (hne : p.var ≠ x) (hp : m.get p = some val)
    (hty : ty p.var = d + p.path.length) :
    ∃ src o, s.locate (.var p.var) p.path = .ok src ∧ Source s d x src val o ∧
      ∀ b ∈ own x, b ∉ o ∧ ∀ i, src ≠ .slot (some b) i := by
  obtain ⟨src, o, hsrc, hvalid, hrep, hsub, hplace⟩ := h.locate hp hty
  refine ⟨src, o, hsrc, ⟨hrep, hvalid, ?_⟩, fun b hb => ⟨fun hbo => ?_, ?_⟩⟩
  · rintro rfl
    rcases hplace with ⟨_, he⟩ | ⟨c, _, j, he⟩
    · exact hne (Loc.var.inj he).symm
    · cases he
  · exact h.disjoint p.var x hne (hsub hbo) hb
  · rintro i rfl
    rcases hplace with ⟨_, he⟩ | ⟨c, hc, j, he⟩
    · cases he
    · cases he
      exact h.disjoint p.var x hne hc hb

/-- What is pushed is not past the end of the vector, and does not own its array. If it is from
another variable, it is outside of the vector. -/
theorem Sound.source (h : Sound ty s m own) (hv : IsVector s d x v vals (own x))
    (hx : m x = some (.list vals)) (hp : m.get p = some val) (hd : ty x = d + 1)
    (hty : ty p.var + 1 = ty x + p.path.length) :
    ∃ src o, s.locate (.var p.var) p.path = .ok src ∧ Source s d x src val o ∧
      src ≠ .slot v.arr v.csize ∧ (∀ b, v.arr = some b → b ∉ o) ∧
      (p.var ≠ x → ∀ b ∈ own x, b ∉ o ∧ ∀ i, src ≠ .slot (some b) i) := by
  by_cases hne : p.var = x
  · obtain ⟨y, path⟩ := p
    subst hne
    obtain ⟨i, rfl⟩ : ∃ i, path = [i] := List.length_eq_one_iff.1 (by dsimp only at hty; omega)
    have hi : vals[i]? = some val := by
      rw [Values.get, hx, Option.bind_some, Val.get] at hp
      obtain ⟨w, hw, hval⟩ := Option.bind_eq_some_iff.1 hp
      exact hval ▸ hw
    obtain ⟨src, o, hlocate, hsrc, hslot, harr⟩ := hv.inside hi
    exact ⟨src, o, hlocate, hsrc, hslot, harr, fun h => absurd rfl h⟩
  · obtain ⟨src, o, hlocate, hsrc, hout⟩ := h.outside hne hp (d := d) (by omega)
    refine ⟨src, o, hlocate, hsrc, ?_, fun b hb => ?_, fun _ => hout⟩
    · rintro rfl
      cases harr : v.arr with
      | none =>
        have hvalid := hsrc.valid
        rw [harr] at hvalid
        exact hvalid
      | some b => exact (hout b (hv.holds.arr_mem harr)).2 v.csize (by rw [harr])
    · exact (hout b (hv.holds.arr_mem hb)).1

theorem OwnsExactly.bare (h : OwnsExactly ty s m own) (hx : (s.objs (.var x)).Bare) :
    own x = [] := by
  cases hm : m x with
  | none => exact h.empty x hm
  | some val => exact (h.rep x val hm).of_bare hx

theorem Sound.kept (h : Sound ty s m own) (hr : Replaced s s' (.var x) (own x) o) (hy : y ≠ x) :
    Kept s s' (own y) :=
  hr.keeps (fun _ hb => h.lt hb) (fun _ hb hb' => h.disjoint y x hy hb hb') nofun

theorem Sound.apart (h : Sound ty s m own) (hr : Replaced s s' (.var x) (own x) o) (hy : y ≠ x) :
    (own y).Disjoint o := by
  intro b hb hb'
  rcases hr.new b hb' with hold | hge
  · exact h.disjoint y x hy hb hold
  · exact Nat.not_lt.2 hge (h.lt hb)

variable [DecidableEq ι]

theorem Sound.replace_disjoint (h : Sound ty s m own) (hr : Replaced s s' (.var x) (own x) o)
    (hyz : y ≠ z) : (Function.update own x o y).Disjoint (Function.update own x o z) := by
  by_cases hy : y = x
  · subst hy
    rw [Function.update_self, Function.update_of_ne hyz.symm]
    exact List.disjoint_symm (h.apart hr hyz.symm)
  · rw [Function.update_of_ne hy]
    by_cases hz : z = x
    · subst hz
      rw [Function.update_self]
      exact h.apart hr hy
    · rw [Function.update_of_ne hz]
      exact h.disjoint y z hyz

theorem Sound.replace_live (h : Sound ty s m own) (hr : Replaced s s' (.var x) (own x) o)
    (hlive : ∀ b ∈ o, s'.live b ≠ none) (b : Nat) :
    s'.live b ≠ none ↔ ∃ y, b ∈ Function.update own x o y := by
  rw [Function.exists_update_iff own fun _ o => b ∈ o]
  constructor
  · intro hb
    by_cases hnew : b ∈ o
    · exact .inl hnew
    have hold : b ∉ own x := fun hold => hb (hr.gone b hold hnew)
    rw [hr.live b hold hnew, h.live b] at hb
    obtain ⟨y, hy⟩ := hb
    exact .inr ⟨y, fun he => hold (he ▸ hy), hy⟩
  · rintro (hb | ⟨y, hne, hb⟩)
    · exact hlive b hb
    · rw [(h.kept hr hne b hb).1]
      exact (h.live b).2 ⟨y, hb⟩

theorem Sound.replace (h : Sound ty s m own) (hr : Replaced s s' (.var x) (own x) o)
    (hrep : ∀ val, w = some val → Rep s' (ty x) (s'.objs (.var x)) val o)
    (hnone : w = none → o = []) :
    Sound ty s' (Function.update m x w) (Function.update own x o) := by
  refine ⟨⟨?rep, ?empty, ?nodup, fun y z hyz => h.replace_disjoint hr hyz, ?live⟩, hr.fresh⟩
  case rep =>
    intro y val hy
    by_cases he : y = x
    · subst he
      rw [Function.update_self] at hy ⊢
      exact hrep val hy
    · rw [Function.update_of_ne he] at hy ⊢
      rw [hr.objs _ ((valid_var s y).not_new h.fresh) (fun h => he (Loc.var.inj h)) nofun]
      exact (h.rep y val hy).frame (h.kept hr he)
  case empty =>
    intro y hy
    by_cases he : y = x
    · subst he
      rw [Function.update_self] at hy ⊢
      exact hnone hy
    · rw [Function.update_of_ne he] at hy ⊢
      exact h.empty y hy
  case nodup =>
    rw [Function.forall_update_iff own fun _ o => o.Nodup]
    exact ⟨hr.nodup, fun y _ => h.nodup y⟩
  case live =>
    refine h.replace_live hr fun b hb => ?_
    cases hw : w with
    | none =>
      rw [hnone hw] at hb
      cases hb
    | some val => exact (hrep val hw).live hb

theorem Sound.assign (h : Sound ty s m own) (o : Obj α)
    (hrep : Rep (s.set (.var x) o) (ty x) o val (own x)) :
    Sound ty (s.set (.var x) o) (m.set x val) (Function.update own x (own x)) := by
  refine h.replace (.set h.fresh (h.nodup x) (.var x) o) ?_ nofun
  rintro _ ⟨⟩
  rwa [set_self]

/-- A variable that owned nothing gets an object that owns new blocks. -/
theorem Sound.made (h : Sound ty s m own) (hx : own x = []) (hg : Grown s s' (· = .var x) o)
    (hrep : Rep s' (ty x) (s'.objs (.var x)) val o) :
    Sound ty s' (m.set x val) (Function.update own x o) := by
  have hreplaced : Replaced s s' (.var x) (own x) o := by
    rw [hx]
    exact hg.adds h.fresh List.nodup_nil nofun fun _ hl => .inl hl
  refine h.replace hreplaced ?_ nofun
  rintro _ ⟨⟩
  exact hrep

theorem copy_self {l : Loc ι} (h : Rep s d (s.objs l) val []) (hl : s.Valid l) :
    copy d l l s = .ok (s.set l (s.objs l)) := by
  cases d with
  | zero =>
    rw [copy, load_ok hl]
    exact store_ok hl _
  | succ d =>
    obtain ⟨v, vals, ho, _, hv⟩ := h
    cases hv with
    | null => rw [copy_null hl hl ho rfl, ho]

/-- An object that owns nothing becomes a copy of another one, or of itself. -/
theorem Sound.copied (h : Sound ty s m own) (hx : own x = []) (hp : m.get p = some val)
    (hty : ty p.var = ty x + p.path.length) :
    ∃ s' own', (do
      let src ← s.locate (.var p.var) p.path
      copy (ty x) (.var x) src s) = .ok s' ∧ Sound ty s' (m.set x val) own' := by
  obtain ⟨src, o, hsrc, hvalid, hrep, hsub, hplace⟩ := h.locate hp hty
  rw [hsrc, ok_bind]
  by_cases hself : src = .var x
  · have hvar : p.var = x := by
      rcases hplace with ⟨_, he⟩ | ⟨b, _, i, he⟩
      · exact Loc.var.inj (he.symm.trans hself)
      · cases he.symm.trans hself
    rw [hvar, hx] at hsub
    obtain rfl := List.eq_nil_of_subset_nil hsub
    subst hself
    refine ⟨_, _, copy_self hrep hvalid, h.assign _ (hx ▸ hrep.frame fun _ hb => ?_)⟩
    cases hb
  · obtain ⟨s', own', hs', hg, hrep'⟩ := copy_spec (ty x) s (.var x) src val o
      { rep := hrep
        fresh := h.fresh
        readable := hvalid
        writable := valid_var s x
        ne := Ne.symm hself
        apart := nofun }
    exact ⟨s', _, hs', h.made hx hg hrep'⟩

theorem objs_set_var (s : Store ι α) (h : y ≠ x) (o : Obj α) :
    (s.set (.var x) o).objs (.var y) = s.objs (.var y) := set_of_ne (fun he => h (Loc.var.inj he)) o

theorem Kept.set_var (s : Store ι α) (x : ι) (o : Obj α) (own : List Nat) :
    Kept s (s.set (.var x) o) own := fun _ _ => ⟨rfl, fun _ => set_of_ne (by nofun) o⟩

/-- A move swaps what the two variables own. -/
theorem Sound.moved (h : Sound ty s m own) (hne : x ≠ y) (hx : own x = []) (hpos : 0 < ty x)
    (hty : ty y = ty x) (hy : m y = some val) :
    ∃ s', moveTo (.var x) (.var y) s = .ok s' ∧
      Sound ty s' ((m.set x val).set y (.list [])) (own ∘ Equiv.swap x y) := by
  obtain ⟨vals, rfl⟩ := h.list hy (hty ▸ hpos)
  obtain ⟨d, v, hd, hv⟩ := h.isVector hy
  refine ⟨(s.set (.var x) (.vector v)).set (.var y) (.vector .null), ?_, ?_⟩
  · rw [moveTo, hv.load]
    rfl
  refine ⟨⟨?rep, ?empty, fun z => h.nodup _, ?disjoint, ?live⟩, h.fresh⟩
  case rep =>
    intro z w hz
    refine Rep.frame (s := s.set (.var x) (.vector v))
      (Rep.frame (s := s) ?_ (Kept.set_var s x _ _)) (Kept.set_var _ y _ _)
    by_cases hzy : z = y
    · subst hzy
      cases (Values.set_self ..).symm.trans hz
      rw [Function.comp, Equiv.swap_apply_right, hx, set_self]
      exact rep_null s hd
    rw [Values.set_of_ne _ hzy] at hz
    rw [objs_set_var _ hzy]
    by_cases hzx : z = x
    · subst hzx
      cases (Values.set_self ..).symm.trans hz
      have hrep := hv.rep
      rw [← hd, hty, hv.obj] at hrep
      rwa [Function.comp, Equiv.swap_apply_left, set_self]
    · rw [Values.set_of_ne _ hzx] at hz
      rw [objs_set_var _ hzx, Function.comp, Equiv.swap_apply_of_ne_of_ne hzx hzy]
      exact h.rep z w hz
  case empty =>
    intro z hz
    by_cases hzy : z = y
    · rw [hzy, Function.comp, Equiv.swap_apply_right, hx]
    rw [Values.set_of_ne _ hzy] at hz
    by_cases hzx : z = x
    · rw [hzx, Values.set_self] at hz
      cases hz
    · rw [Values.set_of_ne _ hzx] at hz
      rw [Function.comp, Equiv.swap_apply_of_ne_of_ne hzx hzy, h.empty z hz]
  case disjoint => exact fun z w hzw => h.disjoint _ _ fun he => hzw ((Equiv.swap x y).injective he)
  case live =>
    intro b
    refine (h.live b).trans ⟨fun ⟨z, hz⟩ => ⟨Equiv.swap x y z, ?_⟩, fun ⟨z, hz⟩ => ⟨_, hz⟩⟩
    rwa [Function.comp, Equiv.swap_apply_self]

theorem Sound.push (h : Sound ty s m own) (hspares : Spares ty s (.push x p))
    (hx : m x = some (.list vals)) (hp : m.get p = some val)
    (hty : ty p.var + 1 = ty x + p.path.length) :
    ∃ s' own', s.step ty (.push x p) = .ok s' ∧
      Sound ty s' (m.set x (.list (vals ++ [val]))) own' := by
  obtain ⟨d, v, hd, hv⟩ := h.isVector hx
  obtain ⟨src, o, hlocate, hsrc, hslot, harr, hout⟩ := h.source hv hx hp hd hty
  have hpushed : ∃ s' v' own', Store.push d (.var x) src s = .ok s' ∧
      Replaced s s' (.var x) (own x) own' ∧ IsVector s' d x v' (vals ++ [val]) own' := by
    rcases Nat.lt_or_ge v.csize v.ccapacity with hroom | hfull
    · exact push_room hv hsrc hroom hslot harr
    · obtain ⟨hne, hsize, hsingle⟩ := hspares v hv.obj hfull
      rw [hd, Nat.add_eq_right] at hsize
      exact push_full hv hsrc hfull (hv.sheds hsingle hsize) (hout hne)
  obtain ⟨s', v', own', hs', hreplaced, hv'⟩ := hpushed
  refine ⟨s', _, ?_, h.replace hreplaced ?_ nofun⟩
  · rw [step, hlocate, ok_bind, hd]
    exact hs'
  · rintro _ ⟨⟩
    rw [hd]
    exact hv'.rep

/-- The result is copied before the vector changes. -/
theorem Sound.pop (h : Sound ty s m own) (hspares : Spares ty s (.pop x r)) (hty : ty x = ty r + 1)
    (hx : m x = some (.list (vals ++ [val]))) (hr : m r = none) :
    ∃ s' own', s.step ty (.pop x r) = .ok s' ∧
      Sound ty s' ((m.set r val).set x (.list vals)) own' := by
  obtain ⟨d, v, hd, hv⟩ := h.isVector hx
  obtain rfl : d = ty r := by omega
  have hxr : x ≠ r := by
    rintro rfl
    cases hx.symm.trans hr
  obtain ⟨b, cap, size, os, o, rfl, hown, hlive, hle, hinit, hval⟩ := hv.holds.of_concat
  have hvalid : s.Valid (.slot (some b) size) := valid_slot hlive hle
  obtain ⟨s₁, o₁, hs₁, hg, hrep⟩ := copy_spec (ty r) s (.var r) (.slot (some b) size) val o
    { rep := hval
      fresh := h.fresh
      readable := hvalid
      writable := valid_var s r
      ne := nofun
      apart := nofun }
  have h₁ := h.made (h.empty r hr) hg hrep
  have hv₁ := hv.grown hg (fun he => hxr (Loc.var.inj he)) fun _ _ _ => nofun
  have hslots (j : Nat) (hj : j ≤ size) :
      s₁.objs (.slot (some b) j) = s.objs (.slot (some b) j) :=
    hg.objs _ ((valid_slot hlive (Nat.lt_of_le_of_lt hj hle)).not_new h.fresh) nofun
  have hitems : s₁.items (some b) 1 size = s.items (some b) 1 size :=
    items_congr fun j _ hj => hslots j (by omega)
  have hlast := hspares _ hv.obj
  rw [Single, Nat.add_sub_cancel, ← hitems, ← hslots size (Nat.le_refl _)] at hlast
  obtain ⟨s', own', hs', hreplaced, hrep'⟩ := shrink_spec hv₁ hlast
  refine ⟨s', Function.update (Function.update own r o₁) x own', ?_, h₁.replace ?_ ?_ nofun⟩
  · rw [step, Store.pop, hd, Nat.add_sub_cancel, hv.load, ok_bind, if_neg (Nat.succ_ne_zero size),
      Nat.add_sub_cancel, hs₁]
    exact hs'
  · rwa [Function.update_of_ne hxr]
  · rintro _ ⟨⟩
    rw [hd]
    exact hrep'

theorem Sound.destroyed (h : Sound ty s m own) (x : ι) :
    Sound ty (s.freed (own x)) (Function.update m x none) (Function.update own x []) :=
  h.replace ((Grown.refl h.fresh _).replaced h.fresh (own x)) nofun fun _ => rfl

theorem Sound.destruct (h : Sound ty s m own) (hx : m x = some val) :
    ∃ s' own', s.step ty (.destruct x) = .ok s' ∧ Sound ty s' (Function.update m x none) own' := by
  have hgone := h.destroyed x
  have hset := Replaced.set hgone.fresh (hgone.nodup x) (.var x) .raw
  have hm := hgone.replace hset (w := none) nofun fun _ => Function.update_self ..
  rw [Function.update_idem] at hm
  refine ⟨_, _, ?_, hm⟩
  rw [step, destroy_spec _ s _ _ _ (h.rep x val hx) (valid_var s x) (h.nodup x), ok_bind]
  rfl

theorem Sound.moveAssign (h : Sound ty s m own) (hspares : Spares ty s (.moveAssign x y))
    (hne : x ≠ y) (hpos : 0 < ty x) (hty : ty y = ty x) (hx : m x = some old)
    (hy : m y = some val) :
    ∃ s' own', s.step ty (.moveAssign x y) = .ok s' ∧
      Sound ty s' ((m.set x val).set y (.list [])) own' := by
  obtain ⟨vals, rfl⟩ := h.list hx hpos
  obtain ⟨d, v, _, hv⟩ := h.isVector hx
  have hdelete := hv.delete (hspares v hv.obj).1
  obtain ⟨s', hs', hmoved⟩ := (h.destroyed x).moved hne (Function.update_self ..) hpos hty
    ((Function.update_of_ne hne.symm ..).trans hy)
  have hm : Values.set (Function.update m x none) x val = m.set x val := Function.update_idem ..
  rw [hm] at hmoved
  refine ⟨s', _, ?_, hmoved⟩
  rw [step, Store.moveAssign, hv.load, ok_bind, hdelete]
  exact hs'

theorem Sound.moveSelf (h : Sound ty s m own) (hspares : Spares ty s (.moveAssign x x))
    (hpos : 0 < ty x) (hx : m x = some val) :
    ∃ s' own', s.step ty (.moveAssign x x) = .ok s' ∧ Sound ty s' m own' := by
  obtain ⟨vals, rfl⟩ := h.list hx hpos
  obtain ⟨d, v, hd, hv⟩ := h.isVector hx
  obtain ⟨hbare, hempty⟩ := hspares v hv.obj
  obtain rfl : vals = [] := List.eq_nil_of_length_eq_zero (hv.holds.length.trans (hempty rfl))
  have hnull := rep_null ((s.freed (own x)).set (.var x) (.vector .null)) hd
  rw [← Function.update_self x [] own] at hnull
  have hset := (h.destroyed x).assign _ hnull
  have hm : Values.set (Function.update m x none) x (.list []) = m := by
    rw [Values.set, Function.update_idem, ← hx, Function.update_eq_self]
  rw [hm] at hset
  refine ⟨_, _, ?_, hset⟩
  have hload : (s.freed (own x)).loadVector (.var x) = .ok v :=
    loadVector_ok (valid_var _ x) hv.obj
  rw [step, Store.moveAssign, hv.load, ok_bind, hv.delete hbare, ok_bind, moveTo, hload, ok_bind,
    store_ok (valid_var _ x), ok_bind, store_ok (valid_var _ x), set_set]

theorem Sound.step (h : Sound ty s m own) (hspares : Spares ty s op) (hmeans : m.Means ty op m') :
    ∃ s' own', s.step ty op = .ok s' ∧ Sound ty s' m' own' := by
  cases hmeans with
  | @item x a hty =>
    have hown : own x = [] := by
      cases hx : m x with
      | none => exact h.empty x hx
      | some val =>
        have hrep := h.rep x val hx
        rw [hty] at hrep
        obtain ⟨_, _, _, hown⟩ := hrep
        exact hown
    refine ⟨_, _, rfl, h.assign (.item a) ?_⟩
    rw [hty]
    exact ⟨a, rfl, rfl, hown⟩
  | @construct x hpos hx =>
    refine ⟨_, _, rfl, h.assign (.vector .null) ?_⟩
    rw [h.empty x hx]
    exact rep_null _ (Nat.succ_pred_eq_of_pos hpos).symm
  | copyConstruct hty hx hp => exact h.copied (h.empty _ hx) hp hty
  | @moveConstruct x y val hpos hty hx hy =>
    have hne : x ≠ y := by
      rintro rfl
      cases hx.symm.trans hy
    obtain ⟨s', hs', hmoved⟩ := h.moved hne (h.empty x hx) hpos hty hy
    exact ⟨s', _, hs', hmoved⟩
  | copyAssign hty hx hp => exact h.copied (h.toOwnsExactly.bare hspares) hp hty
  | moveAssign hpos hty hne hx hy => exact h.moveAssign hspares hne hpos hty hx hy
  | moveSelf hpos hx => exact h.moveSelf hspares hpos hx
  | push hty hx hp => exact h.push hspares hx hp hty
  | pop hty hx hr => exact h.pop hspares hty hx hr
  | destruct hx => exact h.destruct hx

theorem Sound.pop_empty (h : Sound ty s m own) (hx : m x = some (.list [])) (r : ι) :
    s.step ty (.pop x r) = .error .panic := by
  obtain ⟨d, v, hd, hv⟩ := h.isVector hx
  have hsize : v.csize = 0 := hv.holds.length.symm
  rw [Store.step, Store.pop, hv.load, ok_bind, if_pos hsize]

end Store

/-- The memory of a program, and what it is to stand for. -/
structure VectorRun (ι α : Type) where
  store : Store ι α
  values : Values ι α

namespace VectorRun

variable {ι α : Type} [DecidableEq ι]

def start : VectorRun ι α := ⟨.start, fun _ => none⟩

def Makes (ty : ι → Nat) (r : VectorRun ι α) (op : VectorOp ι α) (r' : VectorRun ι α) : Prop :=
  r.values.Means ty op r'.values ∧ r.store.step ty op = .ok r'.store

def Step (ty : ι → Nat) (r r' : VectorRun ι α) : Prop := ∃ op, r.Makes ty op r'

def SparingStep (ty : ι → Nat) (r r' : VectorRun ι α) : Prop :=
  ∃ op, r.store.Spares ty op ∧ r.Makes ty op r'

variable {ty : ι → Nat} {r : VectorRun ι α}

theorem sound (hr : Reachable (· = start) (SparingStep ty) r) :
    ∃ own, r.store.Sound ty r.values own := by
  apply hr.invariant
  · rintro _ rfl
    exact ⟨_, .start⟩
  · rintro r r' ⟨own, h⟩ ⟨op, hspares, hmeans, hstep⟩
    obtain ⟨s', own', hs', h'⟩ := h.step hspares hmeans
    cases hstep.symm.trans hs'
    exact ⟨own', h'⟩

/-- As long as the steps spare, the storage is owned exactly, all steps that make sense go through,
and nothing is popped from an empty vector. -/
theorem vectors_own (hr : Reachable (· = start) (SparingStep ty) r) :
    (∃ own, r.store.OwnsExactly ty r.values own) ∧
      (∀ op m, r.values.Means ty op m → r.store.Spares ty op →
        ∃ s, r.store.step ty op = .ok s) ∧
      ∀ x res, r.values x = some (.list []) → r.store.step ty (.pop x res) = .error .panic := by
  obtain ⟨own, h⟩ := sound hr
  refine ⟨⟨own, h.toOwnsExactly⟩, fun op m hmeans hspares => ?_, ?_⟩
  · obtain ⟨s, _, hs, _⟩ := h.step hspares hmeans
    exact ⟨s, hs⟩
  · exact fun x res hx => h.pop_empty hx res

/-- A character, the line that is written, the lines, and a line that is taken from them. -/
inductive LogVar where
  | c
  | clog
  | logs
  | log
deriving DecidableEq

def LogVar.depth : LogVar → Nat
  | .c => 0
  | .clog | .log => 1
  | .logs => 2

theorem makes (op : VectorOp ι α) (hmeans : m.Means ty op m') (hstep : s.step ty op = .ok s') :
    Step ty ⟨s, m⟩ ⟨s', m'⟩ := ⟨op, hmeans, hstep⟩

theorem next (hr : Reachable (· = start) (SparingStep ty) ⟨s, m⟩) (op : VectorOp ι α)
    (hmeans : m.Means ty op m') (hspares : s.Spares ty op) (hstep : s.step ty op = .ok s') :
    Reachable (· = start) (SparingStep ty) ⟨s', m'⟩ := hr.step ⟨op, hspares, hmeans, hstep⟩

theorem logged : ∃ r : VectorRun LogVar Char, Reachable (· = start) (SparingStep LogVar.depth) r ∧
    r.values .log = some (.list [.item 'a']) := by
  have h₀ : Reachable (· = (start : VectorRun LogVar Char)) (SparingStep LogVar.depth)
      ⟨.start, fun _ => none⟩ := .init rfl
  have h₁ := next h₀ (.construct .logs) (.construct Nat.two_pos rfl) trivial rfl
  have h₂ := next h₁ (.construct .clog) (.construct Nat.one_pos rfl) trivial rfl
  have h₃ := next h₂ (.item .c 'a') (.item rfl) trivial rfl
  have h₄ := next h₃ (.push .clog ⟨.c, []⟩) (.push rfl rfl rfl)
    (by rintro _ ⟨⟩ _; exact ⟨nofun, .inl rfl, nofun⟩) rfl
  have h₅ := next h₄ (.push .logs ⟨.clog, []⟩) (.push rfl rfl rfl)
    (by rintro _ ⟨⟩ _; exact ⟨nofun, .inl rfl, nofun⟩) rfl
  have h₆ := next h₅ (.pop .logs .log) (.pop rfl rfl rfl)
    (by rintro _ ⟨⟩; exact nofun) rfl
  exact ⟨_, h₆, rfl⟩

theorem vectors_own_logged : ∃ r : VectorRun LogVar Char,
    r.values .log = some (.list [.item 'a']) ∧
      (∃ own, r.store.OwnsExactly LogVar.depth r.values own) ∧
      (∀ op m, r.values.Means LogVar.depth op m → r.store.Spares LogVar.depth op →
        ∃ s, r.store.step LogVar.depth op = .ok s) ∧
      ∀ x res, r.values x = some (.list []) →
        r.store.step LogVar.depth (.pop x res) = .error .panic := by
  obtain ⟨r, hr, hlog⟩ := logged
  exact ⟨r, hlog, vectors_own hr⟩

theorem SparingStep.step (h : SparingStep ty r r') : Step ty r r' := by
  obtain ⟨op, _, hmakes⟩ := h
  exact ⟨op, hmakes⟩

theorem overwritten : ∃ r : VectorRun LogVar Char, Reachable (· = start) (Step LogVar.depth) r ∧
    r.store.live 0 = some 1 ∧ ∀ x, (r.store.objs (.var x)).Bare := by
  have h₀ : Reachable (· = (start : VectorRun LogVar Char)) (SparingStep LogVar.depth)
      ⟨.start, fun _ => none⟩ := .init rfl
  have h₁ := next h₀ (.construct .clog) (.construct Nat.one_pos rfl) trivial rfl
  have h₂ := next h₁ (.item .c 'a') (.item rfl) trivial rfl
  have h₃ := next h₂ (.push .clog ⟨.c, []⟩) (.push rfl rfl rfl)
    (by rintro _ ⟨⟩ _; exact ⟨nofun, .inl rfl, nofun⟩) rfl
  have h₄ := next h₃ (.construct .log) (.construct Nat.one_pos rfl) trivial rfl
  have h₅ := (h₄.mono fun _ _ => SparingStep.step).step
    (makes (.copyAssign .clog ⟨.log, []⟩) (.copyAssign rfl rfl rfl) rfl)
  refine ⟨_, h₅, ?_, ?_⟩
  · rfl
  · rintro (_ | _ | _ | _) <;> trivial

theorem not_vectors_own : ¬ ∀ r : VectorRun LogVar Char,
    Reachable (· = start) (Step LogVar.depth) r →
      ∃ own, r.store.OwnsExactly LogVar.depth r.values own := by
  intro hall
  obtain ⟨r, hr, hlive, hbare⟩ := overwritten
  obtain ⟨own, h⟩ := hall r hr
  obtain ⟨x, hx⟩ := (h.live 0).1 (by rw [hlive]; exact Option.some_ne_none 1)
  rw [h.bare (hbare x)] at hx
  cases hx

end VectorRun

end Tupai
