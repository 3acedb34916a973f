import Tupai.Vectors

namespace Tupai
open Lib
set_option autoImplicit true

/-- What the reference that `push` gets refers to: an object outside of the vector, or one of its
own elements. -/
inductive Pushed (α : Type) where
  | value (a : α)
  | element (i : Nat)
deriving DecidableEq

def Pushed.get (l : List α) : Pushed α → Option α
  | .value a => some a
  | .element i => l[i]?

inductive VectorCall (α : Type) where
  | push (item : Pushed α)
  | pop
deriving DecidableEq

/-- The objects of a program that pushes and pops: the vector, what is pushed from outside of it,
and what `pop` returns. -/
inductive VectorVar where
  | this
  | item
  | result
deriving DecidableEq

/-- What a call is to do to a list, and to return. A reference refers to something. -/
inductive VectorCall.Means : List α → VectorCall α → Except Stop (Option α × List α) → Prop where
  | push : item.get l = some a → Means l (.push item) (.ok (none, l ++ [a]))
  | pop : Means (l ++ [a]) .pop (.ok (some a, l))
  | empty : Means [] .pop (.error .panic)

namespace Store

variable {α : Type}

def loadItem (s : Store VectorVar α) (l : Loc VectorVar) : Except Stop α := do
  match ← s.load l with
  | .item a => .ok a
  | _ => .error .undefined

def size (s : Store VectorVar α) : Except Stop Nat := do
  let v ← s.loadVector (.var .this)
  .ok v.csize

/-- `vector_t<T>::get`, and the value that its result refers to. -/
def get (s : Store VectorVar α) (i : Nat) : Except Stop α := do
  let v ← s.loadVector (.var .this)
  s.loadItem (.slot v.arr i)

/-- A vector of a trivially copyable type that was default-constructed. -/
def constructed : Store VectorVar α := start.set (.var .this) (.vector .null)

/-- Every object that a call reads or writes is at an index below the capacity of its block, or else
the result is `.undefined`. -/
def call (s : Store VectorVar α) : VectorCall α → Except Stop (Option α × Store VectorVar α)
  | .push (.value a) => do
    let s ← s.store (.var .item) (.item a)
    let s ← push 0 (.var .this) (.var .item) s
    .ok (none, s)
  | .push (.element i) => do
    let item ← s.locate (.var .this) [i]
    let s ← push 0 (.var .this) item s
    .ok (none, s)
  | .pop => do
    let s ← pop 0 (.var .this) (.var .result) s
    let a ← s.loadItem (.var .result)
    .ok (some a, s)

structure Refines (s : Store VectorVar α) (l : List α) : Prop where
  size : s.size = .ok l.length
  fits : ∀ v, s.objs (.var .this) = .vector v → v.csize ≤ v.ccapacity
  get : ∀ i a, l[i]? = some a → s.get i = .ok a

/-- A call returns what it is to return, or panics where it is to panic, and the vector stands for
what the list becomes. -/
def Does (s : Store VectorVar α) (c : VectorCall α) : Except Stop (Option α × List α) → Prop
  | .ok (a, l) => ∃ s', s.call c = .ok (a, s') ∧ s'.Refines l
  | .error e => s.call c = .error e

/-- An element of the vector itself is not pushed when the vector is full. -/
def Apart (s : Store VectorVar α) : VectorCall α → Prop
  | .push (.element _) => ∀ v, s.objs (.var .this) = .vector v → v.csize < v.ccapacity
  | _ => True

/-- The vector with what it owns, in terms of the vectors that may have vectors as elements. -/
def Stacks (s : Store VectorVar α) (l : List α) : Prop :=
  ∃ v own, IsVector s 0 .this v (l.map .item) own

variable {s s' : Store VectorVar α} {l : List α} {own : List Nat}

theorem loadItem_ok (h : s.Valid p) (ho : s.objs p = .item a) : s.loadItem p = .ok a := by
  rw [loadItem, load_ok h, ho]
  rfl

theorem IsVector.item (h : IsVector s 0 .this v (l.map .item) own) (hi : l[i]? = some a) :
    ∃ b, v.arr = some b ∧ b ∈ own ∧ i < v.csize ∧ s.Valid (.slot (some b) i) ∧
      s.objs (.slot (some b) i) = .item a := by
  have hval : (l.map Val.item)[i]? = some (.item a) := by rw [List.getElem?_map, hi]; rfl
  obtain ⟨b, os, o, harr, rfl, _, hlt, hvalid, a', ho, he, _⟩ := h.holds.element hval
  cases he
  exact ⟨b, harr, List.mem_cons_self, hlt, hvalid, ho⟩

theorem IsVector.refines (h : IsVector s 0 .this v (l.map .item) own) : s.Refines l where
  size := by rw [Store.size, h.load, ok_bind, ← h.holds.length, List.length_map]
  fits w hw := by
    cases h.obj.symm.trans hw
    exact h.holds.le
  get i a hi := by
    obtain ⟨b, harr, _, _, hvalid, ho⟩ := h.item hi
    rw [Store.get, h.load, ok_bind, harr]
    exact loadItem_ok hvalid ho

theorem Stacks.refines (h : s.Stacks l) : s.Refines l := by
  obtain ⟨v, own, hv⟩ := h
  exact hv.refines

theorem Stacks.constructed : (constructed : Store VectorVar α).Stacks [] := by
  refine ⟨.null, [], fun _ _ => rfl, set_self .., ?_, List.nodup_nil⟩
  exact .null

theorem Holds.bare (h : Holds s (Rep s 0) v vals own) (hj : j < v.csize) :
    (s.objs (.slot v.arr j)).Bare := by
  have hlt : j < vals.length := h.length ▸ hj
  obtain ⟨b, _, _, harr, _, _, _, _, a, ho, _⟩ := h.element (List.getElem?_eq_getElem hlt)
  rw [harr, ho]
  trivial

theorem Holds.single (h : Holds s (Rep s 0) v vals own) : s.Single v := by
  intro o ho
  obtain ⟨j, hj, rfl⟩ := List.mem_map.1 ho
  obtain ⟨hpos, hlt⟩ := List.mem_range'_1.1 hj
  have hj : j < v.csize := by omega
  exact h.bare hj

theorem IsVector.sheds_items (h : IsVector s 0 x v vals own) : s.Sheds 0 v.arr own :=
  h.sheds h.holds.single (.inr (.inl rfl))

theorem Stacks.push_value (h : s.Stacks l) (a : α) :
    ∃ s', s.call (.push (.value a)) = .ok (none, s') ∧ s'.Stacks (l ++ [a]) := by
  obtain ⟨v, own, hv⟩ := h
  have h₁ := hv.grown (Grown.set hv.fresh (.var .item) (.item a)) nofun fun _ _ _ => nofun
  have hsrc : Source (s.set (.var .item) (.item a)) 0 .this (.var .item) (.item a) [] :=
    ⟨⟨a, set_self .., rfl, rfl⟩, trivial, nofun⟩
  have hpushed : ∃ s' v' own', Store.push 0 (.var .this) (.var .item)
      (s.set (.var .item) (.item a)) = .ok s' ∧
      Replaced (s.set (.var .item) (.item a)) s' (.var .this) own own' ∧
      IsVector s' 0 .this v' (l.map .item ++ [.item a]) own' := by
    rcases Nat.lt_or_ge v.csize v.ccapacity with hroom | hfull
    · exact push_room h₁ hsrc hroom nofun fun _ _ => List.not_mem_nil
    · exact push_full h₁ hsrc hfull h₁.sheds_items fun _ _ => ⟨List.not_mem_nil, fun _ => nofun⟩
  obtain ⟨s', v', own', hs', _, hv'⟩ := hpushed
  refine ⟨s', ?_, v', own', ?_⟩
  · rw [call, store_ok (valid_var s .item), ok_bind, hs', ok_bind]
  · rwa [List.map_append]

theorem Stacks.push_element (h : s.Stacks l) (ha : s.Apart (.push (.element i)))
    (hi : l[i]? = some a) :
    ∃ s', s.call (.push (.element i)) = .ok (none, s') ∧ s'.Stacks (l ++ [a]) := by
  obtain ⟨v, own, hv⟩ := h
  have hval : (l.map Val.item)[i]? = some (.item a) := by rw [List.getElem?_map, hi]; rfl
  obtain ⟨src, o, hlocate, hsrc, hslot, harr⟩ := hv.inside hval
  obtain ⟨s', v', own', hs', _, hv'⟩ := push_room hv hsrc (ha v hv.obj) hslot harr
  refine ⟨s', ?_, v', own', ?_⟩
  · rw [call, hlocate, ok_bind, hs', ok_bind]
  · rwa [List.map_append]

/-- The array that holds the element is freed before the element is copied. -/
theorem Stacks.push_own (h : s.Stacks l) (ha : ¬ s.Apart (.push (.element i)))
    (hi : l[i]? = some a) : s.call (.push (.element i)) = .error .undefined := by
  obtain ⟨v, own, hv⟩ := h
  obtain ⟨b, harr, hb, hlt, hvalid, _⟩ := hv.item hi
  have hfull : v.ccapacity ≤ v.csize := by
    by_contra hroom
    refine ha fun w hw => ?_
    cases hv.obj.symm.trans hw
    omega
  obtain ⟨s', c, cap, own', hs', hreplaced, hnew, hv', _⟩ := grow_spec hv hfull hv.sheds_items
  have hdead : s'.live b = none :=
    hreplaced.gone b hb fun hb' => Nat.not_lt.2 (hnew b hb') (hvalid.lt hv.fresh)
  have hinvalid : ¬ s'.Valid (.slot (some b) i) := by
    rw [Valid, hdead]
    exact Nat.not_lt_zero i
  have hload : s'.load (.slot (some b) i) = .error .undefined := if_neg hinvalid
  rw [call, locate, hv.load, ok_bind, harr, locate, ok_bind, Store.push, hs', ok_bind, hv'.load,
    ok_bind, copy, hload]
  rfl

theorem Stacks.pop (h : s.Stacks (l ++ [a])) :
    ∃ s', s.call .pop = .ok (some a, s') ∧ s'.Stacks l := by
  obtain ⟨v, own, hv⟩ := h
  have hsize : v.csize = l.length + 1 := by
    rw [← hv.holds.length, List.length_map, List.length_append, List.length_singleton]
  obtain ⟨b, harr, _, _, hvalid, ho⟩ := hv.item (List.getElem?_concat_length ..)
  rw [List.map_append, List.map_singleton] at hv
  have h₁ := hv.grown (Grown.set hv.fresh (.var .result) (.item a)) nofun fun _ _ _ => nofun
  obtain ⟨s', own', hs', hreplaced, hrep⟩ := shrink_spec h₁ (by
    split_ifs
    · exact h₁.holds.single
    · exact h₁.holds.bare (by omega))
  have hresult : s'.objs (.var .result) = .item a := by
    rw [hreplaced.objs (.var .result) ((valid_var _ _).not_new h₁.fresh) nofun fun _ _ _ => nofun]
    exact set_self ..
  obtain ⟨v', vals, hobj, hvals, hholds⟩ := hrep
  cases hvals
  refine ⟨s', ?_, v', own', hreplaced.fresh, hobj, hholds, hreplaced.nodup⟩
  rw [call, Store.pop, hv.load, ok_bind, if_neg (by omega), hsize, Nat.add_sub_cancel, harr, copy,
    load_ok hvalid, ho, ok_bind, store_ok (valid_var s .result), ok_bind, hs', ok_bind,
    loadItem_ok (valid_var s' .result) hresult, ok_bind]

theorem Stacks.pop_empty (h : s.Stacks []) : s.call .pop = .error .panic := by
  obtain ⟨v, own, hv⟩ := h
  have hsize : v.csize = 0 := hv.holds.length.symm
  rw [call, Store.pop, hv.load, ok_bind, if_pos hsize]
  rfl

theorem Stacks.call (h : s.Stacks l) (ha : s.Apart c) (hmeans : c.Means l (.ok (a, l'))) :
    ∃ s', s.call c = .ok (a, s') ∧ s'.Stacks l' := by
  cases hmeans with
  | @push _ _ item hget =>
    cases item with
    | value =>
      cases hget
      exact h.push_value _
    | element i => exact h.push_element ha hget
  | pop => exact h.pop

theorem Stacks.panics (h : s.Stacks l) (hmeans : c.Means l (.error e)) : s.call c = .error e := by
  cases hmeans
  exact h.pop_empty

/-- The condition is exact: without it, the call reads freed memory. -/
theorem Stacks.does_iff (h : s.Stacks l) (hmeans : c.Means l out) : s.Does c out ↔ s.Apart c := by
  refine ⟨fun hdoes => ?_, fun ha => ?_⟩
  · by_contra ha
    cases hmeans with
    | @push _ _ item hget =>
      cases item with
      | value => exact ha trivial
      | element i =>
        obtain ⟨s', hs', _⟩ := hdoes
        cases (h.push_own ha hget).symm.trans hs'
    | pop | empty => exact ha trivial
  · rcases out with e | ⟨a, l'⟩
    · exact h.panics hmeans
    · obtain ⟨s', hs', hl⟩ := h.call ha hmeans
      exact ⟨s', hs', hl.refines⟩

end Store

/-- The memory of a program that pushes and pops, and the list that its vector is to stand for. -/
structure PushRun (α : Type) where
  store : Store VectorVar α
  list : List α

namespace PushRun

variable {α : Type}

def start : PushRun α := ⟨.constructed, []⟩

/-- A call that makes sense, and that the code makes. -/
def Makes (r : PushRun α) (c : VectorCall α) (r' : PushRun α) : Prop :=
  (∃ a, c.Means r.list (.ok (a, r'.list))) ∧ ∃ a, r.store.call c = .ok (a, r'.store)

def Step (r r' : PushRun α) : Prop := ∃ c, r.Makes c r'

def ApartStep (r r' : PushRun α) : Prop := ∃ c, r.store.Apart c ∧ r.Makes c r'

variable {r r' : PushRun α}

theorem isStack (hr : Reachable (· = start) ApartStep r) : r.store.Stacks r.list := by
  apply hr.invariant
  · rintro _ rfl
    exact .constructed
  · rintro r r' h ⟨c, ha, ⟨_, hmeans⟩, _, hcall⟩
    obtain ⟨s', hs', hl⟩ := h.call ha hmeans
    cases hcall.symm.trans hs'
    exact hl

/-- As long as no element of a full vector is pushed to it, the vector is a stack, and it stays one
in the next call just if that does not push such an element either. -/
theorem vector_isStack (hr : Reachable (· = start) ApartStep r) :
    r.store.Refines r.list ∧
      ∀ c out, VectorCall.Means r.list c out → (r.store.Does c out ↔ r.store.Apart c) :=
  ⟨(isStack hr).refines, fun _ _ hmeans => (isStack hr).does_iff hmeans⟩

theorem next (hr : Reachable (· = start) ApartStep ⟨s, l⟩) (c : VectorCall α)
    (hmeans : c.Means l (.ok (a, l'))) (ha : s.Apart c) (hcall : s.call c = .ok (a', s')) :
    Reachable (· = start) ApartStep ⟨s', l'⟩ := hr.step ⟨c, ha, ⟨a, hmeans⟩, a', hcall⟩

theorem doubled : ∃ r : PushRun Char, Reachable (· = start) ApartStep r ∧
    r.list = ['a', 'b', 'c', 'a'] := by
  have h₀ : Reachable (· = (start : PushRun Char)) ApartStep ⟨.constructed, []⟩ := .init rfl
  have h₁ := next h₀ (.push (.value 'a')) (.push rfl) trivial rfl
  have h₂ := next h₁ (.push (.value 'b')) (.push rfl) trivial rfl
  have h₃ := next h₂ (.push (.value 'c')) (.push rfl) trivial rfl
  have h₄ := next h₃ (.push (.element 0)) (.push rfl) (by rintro _ ⟨⟩; decide) rfl
  exact ⟨_, h₄, rfl⟩

theorem vector_isStack_doubled : ∃ r : PushRun Char, r.list = ['a', 'b', 'c', 'a'] ∧
    r.store.Refines ['a', 'b', 'c', 'a'] ∧
      ∀ c out, VectorCall.Means r.list c out → (r.store.Does c out ↔ r.store.Apart c) := by
  obtain ⟨r, hr, hlist⟩ := doubled
  refine ⟨r, hlist, ?_⟩
  rw [← hlist]
  exact vector_isStack hr

theorem ApartStep.step (h : ApartStep r r') : Step r r' := by
  obtain ⟨c, _, hmakes⟩ := h
  exact ⟨c, hmakes⟩

/-- The only element of a vector is pushed. -/
theorem not_vector_isStack : ¬ ∀ r : PushRun Char, Reachable (· = start) Step r →
    ∀ c out, VectorCall.Means r.list c out → r.store.Does c out := by
  intro hall
  have h₀ : Reachable (· = (start : PushRun Char)) ApartStep ⟨.constructed, []⟩ := .init rfl
  have h₁ := next h₀ (.push (.value 'a')) (.push rfl) trivial rfl
  have hdoes := hall _ (h₁.mono fun _ _ => ApartStep.step) (.push (.element 0)) _ (.push rfl)
  have ha := ((isStack h₁).does_iff (.push rfl)).1 hdoes
  exact Nat.lt_irrefl 1 (ha _ rfl)

end PushRun

end Tupai
