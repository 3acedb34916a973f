import Mathlib.Data.List.Infix

namespace Tupai.Lib
set_option autoImplicit true

/-- An opening or closing bracket labelled by what it opens or closes. -/
inductive Bracket (ι : Type*) where
  | opening (i : ι)
  | closing (i : ι)

/-- The brackets still open after a word, innermost first; `none` at a mismatch. -/
def pending [DecidableEq ι] : List ι → List (Bracket ι) → Option (List ι)
  | st, [] => some st
  | st, .opening i :: word => pending (i :: st) word
  | [], .closing _ :: _ => none
  | i :: st, .closing j :: word => if i = j then pending st word else none

/-- A word in which every bracket is matched, innermost first. -/
def Nested [DecidableEq ι] (word : List (Bracket ι)) : Prop := pending [] word = some []

variable [DecidableEq ι]

theorem pending_closing {st st' : List ι} {j : ι} {word : List (Bracket ι)}
    (h : pending st (.closing j :: word) = some st') :
    ∃ rest, st = j :: rest ∧ pending rest word = some st' := by
  cases st with
  | nil => cases h
  | cons i st =>
    rw [pending] at h
    split_ifs at h with he
    exact ⟨st, he ▸ rfl, h⟩

end Tupai.Lib
