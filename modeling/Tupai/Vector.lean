import Mathlib.Logic.Function.Basic

namespace Tupai
set_option autoImplicit true

/-- The fields of a `vector_t`. A null `arr` is `none`. -/
structure VectorT where
  arr : Option Nat
  ccapacity : Nat
  csize : Nat
deriving DecidableEq

def VectorT.null : VectorT := ⟨none, 0, 0⟩

/-- What is at a place in memory: no object yet or none any more, an object of a trivially copyable
type, or a vector. -/
inductive Obj (α : Type) where
  | raw
  | item (a : α)
  | vector (v : VectorT)
deriving DecidableEq

/-- A place for an object: a variable, or an index into what a pointer points at. -/
inductive Loc (ι : Type) where
  | var (x : ι)
  | slot (arr : Option Nat) (i : Nat)
deriving DecidableEq

/-- Memory: the objects, the live blocks with the number of objects that each has room for, and the
first block that was never allocated. -/
structure Store (ι : Type) (α : Type) where
  objs : Loc ι → Obj α
  live : Nat → Option Nat
  next : Nat

/-- Why a program does not go on. -/
inductive Stop where
  | panic
  | undefined
deriving DecidableEq

namespace Store

variable {ι : Type} {α : Type}

/-- The places that may be accessed: all variables, and the slots of the live blocks. -/
def Valid (s : Store ι α) : Loc ι → Prop
  | .var _ => True
  | .slot none _ => False
  | .slot (some b) i => i < (s.live b).getD 0

instance (s : Store ι α) : (l : Loc ι) → Decidable (s.Valid l)
  | .var _ => isTrue trivial
  | .slot none _ => isFalse id
  | .slot (some b) i => inferInstanceAs (Decidable (i < (s.live b).getD 0))

def load (s : Store ι α) (l : Loc ι) : Except Stop (Obj α) :=
  if s.Valid l then .ok (s.objs l) else .error .undefined

def loadVector (s : Store ι α) (l : Loc ι) : Except Stop VectorT := do
  match ← s.load l with
  | .vector v => .ok v
  | _ => .error .undefined

theorem valid_var (s : Store ι α) (x : ι) : s.Valid (.var x) := trivial

@[simp] theorem ok_bind (a : β) (f : β → Except Stop γ) : (Except.ok a >>= f) = f a := rfl

theorem load_ok {s : Store ι α} (h : s.Valid l) : s.load l = .ok (s.objs l) := if_pos h

theorem loadVector_ok {s : Store ι α} (h : s.Valid l) (ho : s.objs l = .vector v) :
    s.loadVector l = .ok v := by
  rw [loadVector, load_ok h, ho]
  rfl

/-- `new uint8_t[n * sizeof(T)]`, which makes the block `next`. -/
def new (s : Store ι α) (n : Nat) : Store ι α :=
  { s with live := Function.update s.live s.next (some n), next := s.next + 1 }

/-- `operator delete` -/
def delete (s : Store ι α) : Option Nat → Except Stop (Store ι α)
  | none => .ok s
  | some b =>
    if s.live b = none then .error .undefined
    else .ok { s with live := Function.update s.live b none }

variable [DecidableEq ι]

def set (s : Store ι α) (l : Loc ι) (o : Obj α) : Store ι α :=
  { s with objs := Function.update s.objs l o }

def store (s : Store ι α) (l : Loc ι) (o : Obj α) : Except Stop (Store ι α) :=
  if s.Valid l then .ok (s.set l o) else .error .undefined

theorem store_ok {s : Store ι α} (h : s.Valid l) (o : Obj α) : s.store l o = .ok (s.set l o) :=
  if_pos h

/-- A vector gets a new array of raw memory. -/
def allocate (s : Store ι α) (this : Loc ι) (ccapacity csize : Nat) : Except Stop (Store ι α) :=
  (s.new ccapacity).store this (.vector ⟨some s.next, ccapacity, csize⟩)

@[simp] theorem set_self (s : Store ι α) (l : Loc ι) (o : Obj α) : (s.set l o).objs l = o :=
  Function.update_self ..

theorem set_of_ne {s : Store ι α} (h : l' ≠ l) (o : Obj α) : (s.set l o).objs l' = s.objs l' :=
  Function.update_of_ne h ..

theorem set_set (s : Store ι α) (l : Loc ι) (o o' : Obj α) : (s.set l o).set l o' = s.set l o' := by
  rw [set, set, set, Function.update_idem]

theorem valid_set (s : Store ι α) (l l' : Loc ι) (o : Obj α) :
    (s.set l o).Valid l' ↔ s.Valid l' := by
  rcases l' with x | ⟨_ | b, i⟩ <;> exact .rfl

/-- A loop that copies `left` elements from one array to another, from index `i` on. -/
def copyLoop (copy : Loc ι → Loc ι → Store ι α → Except Stop (Store ι α)) (dst src : Option Nat) :
    (left i : Nat) → Store ι α → Except Stop (Store ι α)
  | 0, _, s => .ok s
  | left + 1, i, s => do
    let s ← copy (.slot dst i) (.slot src i) s
    copyLoop copy dst src left (i + 1) s

/-- The copy constructor and the copy assignment of a type: of a trivially copyable one at depth 0,
and at depth `d + 1` of a `vector_t` whose elements are of depth `d`. Both of them are `__copy`
there. The loop reads the fields again, for it could be a copy to itself. -/
def copy : (d : Nat) → (dst src : Loc ι) → Store ι α → Except Stop (Store ι α)
  | 0, dst, src, s => do s.store dst (← s.load src)
  | d + 1, dst, src, s => do
    let other ← s.loadVector src
    let s ←
      if other.csize > 0 then s.allocate dst other.ccapacity other.csize
      else s.store dst (.vector .null)
    let this ← s.loadVector dst
    let other ← s.loadVector src
    copyLoop (copy d) this.arr other.arr this.csize 0 s

def destroyLoop (destroy : Loc ι → Store ι α → Except Stop (Store ι α)) (arr : Option Nat) :
    (left i : Nat) → Store ι α → Except Stop (Store ι α)
  | 0, _, s => .ok s
  | left + 1, i, s => do
    let s ← destroy (.slot arr i) s
    destroyLoop destroy arr left (i + 1) s

def destroy : (d : Nat) → (this : Loc ι) → Store ι α → Except Stop (Store ι α)
  | 0, _, s => .ok s
  | d + 1, this, s => do
    let v ← s.loadVector this
    let s ← destroyLoop (destroy d) v.arr v.csize 0 s
    s.delete v.arr

/-- The move constructor of a vector. -/
def moveTo (dst src : Loc ι) (s : Store ι α) : Except Stop (Store ι α) := do
  let other ← s.loadVector src
  let s ← s.store dst (.vector other)
  s.store src (.vector .null)

/-- The move assignment of a vector. -/
def moveAssign (dst src : Loc ι) (s : Store ι α) : Except Stop (Store ι α) := do
  let this ← s.loadVector dst
  let s ← s.delete this.arr
  moveTo dst src s

/-- `vector_t<T>::resize`, where `T` is of depth `d`. The last step is `delete old`, which runs the
destructor of `old[0]`. -/
def resize (d : Nat) (this : Loc ι) (size : Nat) (s : Store ι α) : Except Stop (Store ι α) := do
  let v ← s.loadVector this
  let arr := some s.next
  let s ← s.allocate this size v.csize
  let s ← copyLoop (copy d) arr v.arr v.csize 0 s
  if v.arr ≠ none then
    let s ← destroy d (.slot v.arr 0) s
    s.delete v.arr
  else .ok s

/-- The first step of `push`, which makes room for one more element. -/
def grow (d : Nat) (this : Loc ι) (s : Store ι α) : Except Stop (Store ι α) := do
  let v ← s.loadVector this
  if v.csize ≥ v.ccapacity then resize d this (max (v.ccapacity * 2) 1) s else .ok s

/-- `vector_t<T>::push`; `item` is a reference. -/
def push (d : Nat) (this item : Loc ι) (s : Store ι α) : Except Stop (Store ι α) := do
  let s ← grow d this s
  let v ← s.loadVector this
  let s ← copy d (.slot v.arr v.csize) item s
  s.store this (.vector { v with csize := v.csize + 1 })

/-- The last step of `pop`, which takes the last element away. -/
def shrink (d : Nat) (this : Loc ι) (v : VectorT) (s : Store ι α) : Except Stop (Store ι α) := do
  let s ← s.store this (.vector { v with csize := v.csize - 1 })
  if v.csize - 1 ≤ v.ccapacity / 2 then resize d this (v.ccapacity / 2) s else .ok s

/-- `vector_t<T>::pop`; the result is constructed in `result`. -/
def pop (d : Nat) (this result : Loc ι) (s : Store ι α) : Except Stop (Store ι α) := do
  let v ← s.loadVector this
  if v.csize = 0 then .error .panic
  else
    let s ← copy d result (.slot v.arr (v.csize - 1)) s
    shrink d this v s

/-- `get(i)` along a path of indices. -/
def locate (s : Store ι α) : (l : Loc ι) → (path : List Nat) → Except Stop (Loc ι)
  | l, [] => .ok l
  | l, i :: path => do
    let v ← s.loadVector l
    s.locate (.slot v.arr i) path

end Store

/-- A variable, or an element of one, or of an element. -/
structure Place (ι : Type) where
  var : ι
  path : List Nat

/-- What a program does with its variables. The result of `pop` is a new variable. -/
inductive VectorOp (ι : Type) (α : Type) where
  | item (x : ι) (a : α)
  | construct (x : ι)
  | copyConstruct (x : ι) (p : Place ι)
  | moveConstruct (x y : ι)
  | copyAssign (x : ι) (p : Place ι)
  | moveAssign (x y : ι)
  | push (x : ι) (p : Place ι)
  | pop (x r : ι)
  | destruct (x : ι)

namespace Store

variable {ι : Type} {α : Type} [DecidableEq ι]

/-- No variable yet, and no block. -/
def start : Store ι α := ⟨fun _ => .raw, fun _ => none, 0⟩

/-- One step of a program whose variables are of the depths `ty`. A variable is raw again after its
destructor. -/
def step (ty : ι → Nat) (s : Store ι α) : VectorOp ι α → Except Stop (Store ι α)
  | .item x a => s.store (.var x) (.item a)
  | .construct x => s.store (.var x) (.vector .null)
  | .copyConstruct x p | .copyAssign x p => do
    let src ← s.locate (.var p.var) p.path
    copy (ty x) (.var x) src s
  | .moveConstruct x y => moveTo (.var x) (.var y) s
  | .moveAssign x y => moveAssign (.var x) (.var y) s
  | .push x p => do
    let item ← s.locate (.var p.var) p.path
    push (ty x - 1) (.var x) item s
  | .pop x r => pop (ty x - 1) (.var x) (.var r) s
  | .destruct x => do
    let s ← destroy (ty x) (.var x) s
    s.store (.var x) .raw

end Store

end Tupai
