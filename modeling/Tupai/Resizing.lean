import Tupai.Ownership

namespace Tupai
open Lib
set_option autoImplicit true

def Obj.Bare : Obj α → Prop
  | .vector v => v.arr = none
  | _ => True

namespace Store

variable {ι α : Type}

/-- What `delete old` frees: no array, an array whose elements have no destructor, or an array whose
first element owns all that its elements own. -/
inductive Sheds (s : Store ι α) (d : Nat) : (arr : Option Nat) → (own : List Nat) → Prop where
  | null : Sheds s d none []
  | items : d = 0 → s.live b ≠ none → Sheds s d (some b) [b]
  | head : s.Valid (.slot (some b) 0) → Rep s d (s.objs (.slot (some b) 0)) val own →
      (b :: own).Nodup → Sheds s d (some b) (b :: own)

variable {s s' s'' : Store ι α} {val : Val α} {own own' : List Nat}

theorem Valid.live (h : s.Valid (.slot (some b) i)) : s.live b ≠ none := by
  intro hnone
  rw [Valid, hnone] at h
  exact Nat.not_lt_zero i h

theorem Sheds.mem (h : Sheds s d (some b) own) : b ∈ own := by
  cases h with
  | items | head => exact List.mem_cons_self

theorem Sheds.live (h : Sheds s d arr own) (hb : b ∈ own) : s.live b ≠ none := by
  cases h with
  | null => cases hb
  | items _ hlive =>
    obtain rfl := List.mem_singleton.1 hb
    exact hlive
  | head hvalid hrep =>
    rcases List.mem_cons.1 hb with rfl | hb
    · exact hvalid.live
    · exact hrep.live hb

theorem Sheds.grown (h : Sheds s d arr own) (hf : s.Fresh) (hg : Grown s s' W own')
    (hW : ∀ b ∈ own, ∀ i, ¬ W (.slot (some b) i)) : Sheds s' d arr own := by
  cases h with
  | null => exact .null
  | items hd hlive =>
    refine .items hd ?_
    rwa [hg.kept _ (hf.lt hlive)]
  | head hvalid hrep hnodup =>
    have hrep' := hrep.grown hf hg fun b hb => hW b (List.mem_cons_of_mem _ hb)
    rw [← hg.objs _ (hvalid.not_new hf) (hW _ List.mem_cons_self 0)] at hrep'
    exact .head (hg.valid hf hvalid) hrep' hnodup

/-- The object at a place owned some blocks and owns others now. Nothing else changed but the
contents of its blocks. -/
structure Replaced (s s' : Store ι α) (this : Loc ι) (own own' : List Nat) : Prop where
  next : s.next ≤ s'.next
  objs : ∀ l, ¬ s.New l → l ≠ this → (∀ b ∈ own, ∀ i, l ≠ .slot (some b) i) →
    s'.objs l = s.objs l
  live : ∀ b ∉ own, b ∉ own' → s'.live b = s.live b
  gone : ∀ b ∈ own, b ∉ own' → s'.live b = none
  nodup : own'.Nodup
  new : ∀ b ∈ own', b ∈ own ∨ s.next ≤ b
  fresh : s'.Fresh

theorem Grown.live (h : Grown s s' W own) (hf : s.Fresh) (hb : b ∉ own) :
    s'.live b = s.live b := by
  rcases Nat.lt_or_ge b s.next with hlt | hge
  · exact h.kept b hlt
  · have hdead := not_not.1 (mt (h.live_iff b hge).1 hb)
    rw [hdead, hf b hge]

/-- The object has new blocks, and its old ones were freed. -/
theorem Grown.replaced (h : Grown s s' (· = this) own') (hf : s.Fresh) (own : List Nat) :
    Replaced s (s'.freed own) this own own' where
  next := h.next
  objs l hl hne _ := h.objs l hl hne
  live b hb hb' := (freed_live s' hb).trans (h.live hf hb')
  gone b hb _ := if_pos hb
  nodup := h.nodup
  new b hb := .inr (h.ge b hb)
  fresh b hb := by
    dsimp only [freed]
    split_ifs
    · rfl
    · exact h.fresh b hb

/-- The object keeps its blocks, and has new ones besides. -/
theorem Grown.adds (h : Grown s s' W own') (hf : s.Fresh) (hnodup : own.Nodup)
    (hlt : ∀ b ∈ own, b < s.next)
    (hW : ∀ l, W l → l = this ∨ ∃ b ∈ own, ∃ i, l = .slot (some b) i) :
    Replaced s s' this own (own ++ own') where
  next := h.next
  objs l hl hne hown := by
    refine h.objs l hl fun hw => ?_
    rcases hW l hw with he | ⟨b, hb, i, he⟩
    · exact hne he
    · exact hown b hb i he
  live b _ hb' := h.live hf fun hb => hb' (List.mem_append_right own hb)
  gone b hb hb' := absurd (List.mem_append_left own' hb) hb'
  nodup := hnodup.append h.nodup fun b hb hb' => Nat.not_lt.2 (h.ge b hb') (hlt b hb)
  new b hb := (List.mem_append.1 hb).imp_right (h.ge b)
  fresh := h.fresh

theorem Replaced.trans (h : Replaced s s' this own own') (h' : Replaced s' s'' this own' own'')
    (hf : s.Fresh) : Replaced s s'' this own own'' where
  next := Nat.le_trans h.next h'.next
  objs l hl hne hown := by
    rw [h'.objs l, h.objs l hl hne hown]
    · rintro ⟨b, i, hb, rfl⟩
      exact hl ⟨b, i, Nat.le_trans h.next hb, rfl⟩
    · exact hne
    · rintro b hb i rfl
      rcases h.new b hb with hb | hb
      · exact hown b hb i rfl
      · exact hl ⟨b, i, hb, rfl⟩
  live b hb hb'' := by
    by_cases hb' : b ∈ own'
    · rw [h'.gone b hb' hb'', hf b ((h.new b hb').resolve_left hb)]
    · rw [h'.live b hb' hb'', h.live b hb hb']
  gone b hb hb'' := by
    by_cases hb' : b ∈ own'
    · exact h'.gone b hb' hb''
    · rw [h'.live b hb' hb'', h.gone b hb hb']
  nodup := h'.nodup
  new b hb := by
    rcases h'.new b hb with hb | hb
    · exact h.new b hb
    · exact .inr (Nat.le_trans h.next hb)
  fresh := h'.fresh

/-- A vector variable with its value and with the blocks that it owns. -/
structure IsVector (s : Store ι α) (d : Nat) (x : ι) (v : VectorT) (vals : List (Val α))
    (own : List Nat) : Prop where
  fresh : s.Fresh
  obj : s.objs (.var x) = .vector v
  holds : Holds s (Rep s d) v vals own
  nodup : own.Nodup

structure Source (s : Store ι α) (d : Nat) (x : ι) (src : Loc ι) (val : Val α) (own : List Nat) :
    Prop where
  rep : Rep s d (s.objs src) val own
  valid : s.Valid src
  ne : src ≠ .var x

theorem rep_null (s : Store ι α) (hd : ty = d + 1) :
    Rep s ty (.vector .null) (.list []) [] := by
  rw [hd]
  exact ⟨.null, [], rfl, rfl, .null⟩

theorem Rep.of_bare (h : Rep s d o val own) (ho : o.Bare) : own = [] := by
  cases d with
  | zero =>
    obtain ⟨_, _, _, rfl⟩ := h
    rfl
  | succ d =>
    obtain ⟨v, vals, rfl, _, hv⟩ := h
    cases hv with
    | null => rfl
    | block => cases ho

theorem Rep.holds (h : Rep s (d + 1) (.vector v) (.list vals) own) :
    Holds s (Rep s d) v vals own := by
  obtain ⟨_, _, hv, hvals, h⟩ := h
  cases hv
  cases hvals
  exact h

theorem Holds.items (h : Holds s (Rep s d) v vals own) :
    ∃ kept, kept ⊆ own ∧ Owned (Rep s d) (s.items v.arr 0 v.csize) vals kept := by
  cases h with
  | null => exact ⟨[], List.Subset.refl _, .nil⟩
  | block _ _ hitems => exact ⟨_, List.subset_cons_self .., hitems⟩

theorem Holds.valid (h : Holds s (Rep s d) v vals own) (hj : j < v.csize) :
    s.Valid (.slot v.arr j) := by
  cases h with
  | null => cases hj
  | block hlive hle => exact valid_slot hlive (Nat.lt_of_lt_of_le hj hle)

theorem Holds.arr_mem (h : Holds s R v vals own) (hb : v.arr = some b) : b ∈ own := by
  cases h with
  | null => cases hb
  | block =>
    cases hb
    exact List.mem_cons_self

theorem Holds.le (h : Holds s R v vals own) : v.csize ≤ v.ccapacity := by
  cases h with
  | null => exact Nat.le_refl 0
  | block _ hle => exact hle

theorem Holds.length (h : Holds s R v vals own) : vals.length = v.csize := by
  cases h with
  | null => rfl
  | block _ _ hitems =>
    have hlen := hitems.length
    rw [Store.items, List.length_map, List.length_range'] at hlen
    exact hlen.symm

theorem Holds.element (h : Holds s (Rep s d) v vals own) (hi : vals[i]? = some val) :
    ∃ b os o, v.arr = some b ∧ own = b :: os ∧ o ⊆ os ∧ i < v.csize ∧
      s.Valid (.slot (some b) i) ∧ Rep s d (s.objs (.slot (some b) i)) val o := by
  have hlt : i < v.csize := h.length ▸ (List.getElem?_eq_some_iff.1 hi).1
  cases h with
  | null => cases hi
  | @block b cap size _ os hlive hle hitems =>
    obtain ⟨c, before, o, after, hc, rfl, hrep⟩ := hitems.getElem? hi
    rw [Store.items, List.getElem?_map, List.getElem?_range' hlt, Nat.zero_add, Nat.one_mul] at hc
    cases hc
    refine ⟨b, _, o, rfl, rfl, ?_, hlt, valid_slot hlive (Nat.lt_of_lt_of_le hlt hle), hrep⟩
    exact List.subset_append_of_subset_left _ (List.subset_append_right ..)

theorem Holds.of_concat (h : Holds s (Rep s d) v (vals ++ [val]) own) :
    ∃ b cap m os o, v = ⟨some b, cap, m + 1⟩ ∧ own = b :: (os ++ o) ∧ s.live b = some cap ∧
      m + 1 ≤ cap ∧ Owned (Rep s d) (s.items (some b) 0 m) vals os ∧
      Rep s d (s.objs (.slot (some b) m)) val o := by
  generalize hw : vals ++ [val] = w at h
  cases h with
  | null => exact absurd hw (List.append_ne_nil_of_right_ne_nil _ nofun)
  | @block b cap size _ _ hlive hle hitems =>
    cases size with
    | zero =>
      cases hitems
      exact absurd hw (List.append_ne_nil_of_right_ne_nil _ nofun)
    | succ m =>
      rw [items_concat] at hitems
      obtain ⟨vals', val', os, o, rfl, rfl, hinit, hval⟩ := hitems.of_concat
      obtain ⟨rfl, hlast⟩ := List.append_inj' hw rfl
      cases hlast
      exact ⟨b, cap, m, os, o, rfl, rfl, hlive, hle, hinit, hval⟩

/-- The elements but the first one have no arrays. -/
def Single (s : Store ι α) (v : VectorT) : Prop := ∀ o ∈ s.items v.arr 1 (v.csize - 1), o.Bare

theorem Replaced.keeps (h : Replaced s s' this own own')
    (hlt : ∀ b ∈ o, b < s.next) (hout : ∀ b ∈ o, b ∉ own)
    (hne : ∀ b ∈ o, ∀ i, this ≠ .slot (some b) i) : Kept s s' o := by
  intro b hb
  have hnew : b ∉ own' := fun hb' => (h.new b hb').elim (hout b hb) (Nat.not_le.2 (hlt b hb))
  refine ⟨h.live b (hout b hb) hnew, fun i => h.objs _ ?_ (hne b hb i).symm ?_⟩
  · rintro ⟨c, j, hc, he⟩
    cases he
    exact Nat.not_lt.2 hc (hlt b hb)
  · rintro c hc j he
    cases he
    exact hout b hb hc

theorem Replaced.valid (h : Replaced s s' this own own') (hf : s.Fresh) (hl : s.Valid l)
    (hout : ∀ b ∈ own, ∀ i, l ≠ .slot (some b) i) : s'.Valid l := by
  rcases l with x | ⟨_ | b, i⟩
  · trivial
  · exact hl.elim
  · have hold : b ∉ own := fun hb => hout b hb i rfl
    have hnew : b ∉ own' := fun hb => (h.new b hb).elim hold (Nat.not_le.2 (hl.lt hf))
    rw [Valid, h.live b hold hnew]
    exact hl

theorem Source.replaced (hsrc : Source s d x src val o) (h : Replaced s s' (.var x) own own')
    (hf : s.Fresh) (hout : ∀ b ∈ own, b ∉ o ∧ ∀ i, src ≠ .slot (some b) i) :
    Source s' d x src val o where
  rep := by
    rw [h.objs src (hsrc.valid.not_new hf) hsrc.ne fun b hb => (hout b hb).2]
    refine hsrc.rep.frame (h.keeps (fun b hb => hsrc.rep.lt hf hb) ?_ nofun)
    exact fun b hb hown => (hout b hown).1 hb
  valid := h.valid hf hsrc.valid fun b hb => (hout b hb).2
  ne := hsrc.ne

theorem IsVector.load (h : IsVector s d x v vals own) : s.loadVector (.var x) = .ok v :=
  loadVector_ok (valid_var s x) h.obj

theorem IsVector.rep (h : IsVector s d x v vals own) :
    Rep s (d + 1) (s.objs (.var x)) (.list vals) own := ⟨v, vals, h.obj, rfl, h.holds⟩

theorem IsVector.grown (h : IsVector s d x v vals own) (hg : Grown s s' W own')
    (hx : ¬ W (.var x)) (hW : ∀ b ∈ own, ∀ i, ¬ W (.slot (some b) i)) :
    IsVector s' d x v vals own where
  fresh := hg.fresh
  obj := (hg.objs _ ((valid_var s x).not_new h.fresh) hx).trans h.obj
  holds := by
    have hrep := h.rep.grown h.fresh hg hW
    rw [h.obj] at hrep
    exact hrep.holds
  nodup := h.nodup

/-- If the elements but the first one own nothing, `delete old` frees all that the vector owns. -/
theorem IsVector.sheds (h : IsVector s d x v vals own) (hsingle : Single s v)
    (hsize : v.arr = none ∨ d = 0 ∨ 0 < v.csize) : Sheds s d v.arr own := by
  have hnodup := h.nodup
  cases h.holds with
  | null => exact .null
  | @block b cap size _ os hlive hle hitems =>
    cases size with
    | zero =>
      cases hitems
      have hd : d = 0 := hsize.elim nofun fun h => h.resolve_right (Nat.lt_irrefl 0)
      exact .items hd (by rw [hlive]; exact Option.some_ne_none cap)
    | succ n =>
      rw [items_succ] at hitems
      cases hitems with
      | cons hval hrest =>
        obtain rfl := hrest.of_bare fun o ho v own hR => hR.of_bare (hsingle o ho)
        rw [List.append_nil] at hnodup ⊢
        exact .head (valid_slot hlive (by omega)) hval hnodup

/-- Elements that own nothing need no destructor. -/
theorem IsVector.delete (h : IsVector s d x v vals own)
    (hbare : ∀ o ∈ s.items v.arr 0 v.csize, o.Bare) : s.delete v.arr = .ok (s.freed own) := by
  cases h.holds with
  | null =>
    rw [freed_nil]
    rfl
  | @block b _ _ _ _ hlive _ hitems =>
    obtain rfl := hitems.of_bare fun o ho v own hR => hR.of_bare (hbare o ho)
    have hdelete := freed_delete (by rw [hlive]; exact Option.some_ne_none _) List.not_mem_nil
    rwa [freed_nil] at hdelete

variable [DecidableEq ι]

theorem Sheds.delete (h : Sheds s d arr own) :
    (if arr ≠ none then do
      let s ← destroy d (.slot arr 0) s
      s.delete arr
    else .ok s) = .ok (s.freed own) := by
  cases h with
  | null => rw [freed_nil, if_neg (not_not.2 rfl)]
  | items hd hlive =>
    subst hd
    rw [if_pos (Option.some_ne_none _), destroy, ok_bind]
    have hdelete := freed_delete hlive List.not_mem_nil
    rwa [freed_nil] at hdelete
  | head hvalid hrep hnodup =>
    obtain ⟨hb, hown⟩ := List.nodup_cons.1 hnodup
    rw [if_pos (Option.some_ne_none _), destroy_spec d s _ _ _ hrep hvalid hown, ok_bind]
    exact freed_delete hvalid.live hb

/-- A vector with all of its elements, or without those at its end that own nothing, can be moved to
another array if the first element owns what the others own. -/
theorem resize_spec (size : Nat) (hf : s.Fresh) (hthis : s.Valid this)
    (ho : s.objs this = .vector v) (hitems : Owned (Rep s d) (s.items v.arr 0 v.csize) vals kept)
    (hslots : ∀ j < v.csize, s.Valid (.slot v.arr j)) (hcap : v.csize ≤ size)
    (hsheds : Sheds s d v.arr own) (hkept : kept ⊆ own)
    (hapart : ∀ b ∈ own, ∀ i, this ≠ .slot (some b) i) :
    ∃ s' own', resize d this size s = .ok (s'.freed own) ∧ Grown s s' (· = this) own' ∧
      s'.objs this = .vector ⟨some s.next, size, v.csize⟩ ∧
      Rep (s'.freed own) (d + 1) (s'.objs this) (.list vals) own' := by
  have hnew : v.arr ≠ some s.next := by
    intro he
    rw [he] at hsheds
    exact Nat.lt_irrefl _ (hf.lt (hsheds.live hsheds.mem))
  have hne (j : Nat) : this ≠ .slot v.arr j := by
    cases harr : v.arr with
    | none =>
      rintro rfl
      exact hthis
    | some b =>
      rw [harr] at hsheds
      exact hapart b hsheds.mem j
  obtain ⟨s', own', hs', hg, hobj, hholds⟩ := refill_spec (copy_spec d) hf hthis hitems hslots hnew
    hne (fun b hb => hapart b (hkept hb)) hcap
  have hrep : Rep s' (d + 1) (s'.objs this) (.list vals) (s.next :: own') :=
    ⟨_, _, hobj, rfl, hholds⟩
  refine ⟨s', s.next :: own', ?_, hg, hobj, hrep.frame (.freed s' fun b hb hold => ?_)⟩
  · have hold := hsheds.grown hf hg fun b hb i he => hapart b hb i he.symm
    rw [resize, loadVector_ok hthis ho, ok_bind, allocate_ok hf hthis]
    simp only [ok_bind, hs']
    exact hold.delete
  · exact Nat.not_lt.2 (hg.ge b hb) (hf.lt (hsheds.live hold))

theorem Replaced.set (hf : s.Fresh) (hnodup : own.Nodup) (this : Loc ι) (o : Obj α) :
    Replaced s (s.set this o) this own own where
  next := Nat.le_refl _
  objs _ _ hne _ := set_of_ne hne o
  live _ _ _ := rfl
  gone _ hb hb' := absurd hb hb'
  nodup := hnodup
  new _ hb := .inl hb
  fresh := hf

theorem append_spec (h : IsVector s d x ⟨some b, cap, size⟩ vals own)
    (hsrc : Source s d x src val o) (hroom : size < cap) (hslot : src ≠ .slot (some b) size)
    (hb : b ∉ o) :
    ∃ s' own', (do
      let s ← copy d (.slot (some b) size) src s
      s.store (.var x) (.vector ⟨some b, cap, size + 1⟩)) = .ok s' ∧
      Replaced s s' (.var x) own own' ∧
      IsVector s' d x ⟨some b, cap, size + 1⟩ (vals ++ [val]) own' := by
  have hlt (c : Nat) (hc : c ∈ own) : c < s.next := h.rep.lt h.fresh hc
  cases h.holds with
  | @block _ _ _ _ os hlive hle hitems =>
    have hbos := (List.nodup_cons.1 h.nodup).1
    obtain ⟨s₁, o', hs₁, hg₁, hrep₁⟩ := copy_spec d s (.slot (some b) size) src val o
      { rep := hsrc.rep
        fresh := h.fresh
        readable := hsrc.valid
        writable := valid_slot hlive hroom
        ne := hslot.symm
        apart := fun c hc i he => hb (by cases he; exact hc) }
    have hset := Grown.set hg₁.fresh (.var x) (.vector ⟨some b, cap, size + 1⟩)
    have hg := (hg₁.mono fun _ _ he => .inl he).trans hset
      (W := fun l => l = .slot (some b) size ∨ l = .var x) fun _ _ he => .inr he
    rw [List.append_nil] at hg
    have hitems₂ := items_grown hitems h.fresh hg (fun j hj => valid_slot hlive (by omega))
      (by rintro j _ hj (he | he) <;> cases he; omega)
      (by rintro c hc j (he | he) <;> cases he; exact hbos hc)
    have hval := hrep₁.grown hg₁.fresh hset fun c _ i he => by cases he
    have hobj : (s₁.set (.var x) (.vector ⟨some b, cap, size + 1⟩)).objs (.slot (some b) size) =
        s₁.objs (.slot (some b) size) := set_of_ne (by nofun) _
    rw [← hobj] at hval
    have hreplaced : Replaced s _ (.var x) _ _ := hg.adds h.fresh h.nodup hlt fun l hl => by
      rcases hl with rfl | rfl
      · exact .inr ⟨b, List.mem_cons_self, size, rfl⟩
      · exact .inl rfl
    refine ⟨_, b :: os ++ o', ?_, hreplaced, hg.fresh, set_self .., ?_, hreplaced.nodup⟩
    · rw [hs₁, ok_bind]
      exact store_ok (valid_var s₁ x) _
    · refine .block ((hg.kept b (hlt b List.mem_cons_self)).trans hlive) hroom ?_
      rw [items_concat]
      exact hitems₂.concat hval

theorem grow_spec (h : IsVector s d x v vals own) (hfull : v.ccapacity ≤ v.csize)
    (hsheds : Sheds s d v.arr own) :
    ∃ s' b cap own', grow d (.var x) s = .ok s' ∧ Replaced s s' (.var x) own own' ∧
      (∀ b ∈ own', s.next ≤ b) ∧ IsVector s' d x ⟨some b, cap, v.csize⟩ vals own' ∧
      v.csize < cap := by
  obtain ⟨kept, hkept, hitems⟩ := h.holds.items
  have hle := h.holds.le
  obtain ⟨s', own', hs', hg, hobj, hrep⟩ := resize_spec (max (v.ccapacity * 2) 1)
    h.fresh (valid_var s x) h.obj hitems (fun j hj => h.holds.valid hj) (by omega) hsheds hkept
    nofun
  have hreplaced := hg.replaced h.fresh own
  rw [hobj] at hrep
  refine ⟨_, _, _, own', ?_, hreplaced, hg.ge, ⟨hreplaced.fresh, hobj, hrep.holds, hg.nodup⟩,
    by omega⟩
  rw [grow, h.load, ok_bind, if_pos hfull, hs']

theorem push_room (h : IsVector s d x v vals own) (hsrc : Source s d x src val o)
    (hroom : v.csize < v.ccapacity) (hslot : src ≠ .slot v.arr v.csize)
    (harr : ∀ b ∈ v.arr, b ∉ o) :
    ∃ s' v' own', push d (.var x) src s = .ok s' ∧ Replaced s s' (.var x) own own' ∧
      IsVector s' d x v' (vals ++ [val]) own' := by
  have hgrow : grow d (.var x) s = .ok s := by
    rw [grow, h.load, ok_bind, if_neg (Nat.not_le.2 hroom)]
  rw [push, hgrow, ok_bind, h.load, ok_bind]
  rcases v with ⟨_ | b, cap, size⟩
  · cases h.holds
    exact absurd hroom (Nat.lt_irrefl 0)
  · obtain ⟨s', own', hs', hreplaced, hv⟩ := append_spec h hsrc hroom hslot (harr b rfl)
    exact ⟨s', _, own', hs', hreplaced, hv⟩

/-- An element of the vector cannot be pushed when the vector grows, for it is freed before it is
copied. -/
theorem push_full (h : IsVector s d x v vals own) (hsrc : Source s d x src val o)
    (hfull : v.ccapacity ≤ v.csize) (hsheds : Sheds s d v.arr own)
    (hout : ∀ b ∈ own, b ∉ o ∧ ∀ i, src ≠ .slot (some b) i) :
    ∃ s' v' own', push d (.var x) src s = .ok s' ∧ Replaced s s' (.var x) own own' ∧
      IsVector s' d x v' (vals ++ [val]) own' := by
  obtain ⟨s₁, b, cap, own₁, hs₁, hreplaced₁, hnew, h₁, hroom⟩ := grow_spec h hfull hsheds
  have hsrc₁ := hsrc.replaced hreplaced₁ h.fresh hout
  have hb : s.next ≤ b := hnew b (by cases h₁.holds; exact List.mem_cons_self)
  have hslot : src ≠ .slot (some b) v.csize := by
    rintro rfl
    exact hsrc.valid.not_new h.fresh ⟨b, v.csize, hb, rfl⟩
  have hbo : b ∉ o := fun hmem => Nat.not_lt.2 hb (hsrc.rep.lt h.fresh hmem)
  obtain ⟨s', own', hs', hreplaced, hv⟩ := append_spec h₁ hsrc₁ hroom hslot hbo
  refine ⟨s', _, own', ?_, hreplaced₁.trans hreplaced h.fresh, hv⟩
  rw [push, hs₁, ok_bind, h₁.load, ok_bind]
  exact hs'

/-- The element that `pop` takes away has to own nothing, unless it is the only one: then
`delete old` destroys it. -/
theorem shrink_spec (h : IsVector s d x v (vals ++ [val]) own)
    (hlast : if v.csize - 1 ≤ v.ccapacity / 2 then Single s v
      else (s.objs (.slot v.arr (v.csize - 1))).Bare) :
    ∃ s' own', shrink d (.var x) v s = .ok s' ∧ Replaced s s' (.var x) own own' ∧
      Rep s' (d + 1) (s'.objs (.var x)) (.list vals) own' := by
  obtain ⟨b, cap, m, os, o, rfl, rfl, hlive, hle, hinit, hval⟩ := h.holds.of_concat
  have hset := Grown.set h.fresh (.var x) (.vector ⟨some b, cap, m⟩)
  have hreplaced := Replaced.set h.fresh h.nodup (.var x) (.vector ⟨some b, cap, m⟩)
  have hinit₁ := items_grown hinit h.fresh hset (fun j hj => valid_slot hlive (by omega))
    (fun _ _ _ => nofun) fun _ _ _ => nofun
  rw [shrink, store_ok (valid_var s x), ok_bind]
  dsimp only [Nat.add_sub_cancel] at hlast ⊢
  split_ifs at hlast ⊢ with hsize
  · have hsheds := (h.sheds hlast (.inr (.inr (Nat.succ_pos m)))).grown h.fresh hset
      fun _ _ _ => nofun
    obtain ⟨s', own', hs', hg, _, hrep⟩ := resize_spec (cap / 2) hset.fresh
      (valid_var _ x) (set_self ..) hinit₁
      (fun j hj => valid_slot hlive (Nat.lt_trans hj hle)) hsize hsheds
      (List.subset_cons_of_subset b (List.subset_append_left os o)) nofun
    exact ⟨_, own', hs', hreplaced.trans (hg.replaced hset.fresh _) h.fresh, hrep⟩
  · obtain rfl := hval.of_bare hlast
    rw [List.append_nil] at hreplaced ⊢
    refine ⟨_, b :: os, rfl, hreplaced, ⟨some b, cap, m⟩, vals, set_self .., rfl, ?_⟩
    exact .block hlive (Nat.le_of_succ_le hle) hinit₁

end Store

end Tupai
