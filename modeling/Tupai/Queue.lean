import Tupai.Basic
import Tupai.Lib.Ring

namespace Tupai
open Lib
set_option autoImplicit true

/-- The ring buffer `_queue_t`; its size `N` is an argument of the operations. -/
structure Queue (T : Type u) where
  items : Nat → T
  head : Nat
  tail : Nat
  length : Nat

namespace Queue

def empty (item : T) : Queue T := ⟨fun _ => item, 0, 0, 0⟩

def push (N : Nat) (q : Queue T) (item : T) : Queue T :=
  let q :=
    if q.length ≠ 0 then
      let head := (q.head + 1) % N
      { q with head := head, tail := if head = q.tail then (q.tail + 1) % N else q.tail }
    else q
  { q with
    items := Function.update q.items q.head item
    length := if q.length < N then q.length + 1 else q.length }

/-- The length is a `size_t`: popping an empty queue wraps it. -/
def pop (N : Nat) (q : Queue T) : T × Queue T :=
  let length := wrapSub 64 q.length 1
  let item := q.items q.tail
  (item, { q with length := length, tail := if length ≠ 0 then (q.tail + 1) % N else q.tail })

def len (q : Queue T) : Nat := q.length

/-- The queued items, oldest first. -/
def toList (N : Nat) (q : Queue T) : List T := window N q.items q.tail q.length

theorem toList_mk (N : Nat) (items : Nat → T) (head tail length : Nat) :
    (Queue.mk items head tail length).toList N = window N items tail length := rfl

/-- The indices that the operations keep: `head` is the slot of the newest item. -/
structure Ok (N : Nat) (q : Queue T) : Prop where
  tail_lt : q.tail < N
  length_le : q.length ≤ N
  head_eq : q.head = (q.tail + (q.length - 1)) % N

theorem empty_ok (h : 0 < N) (item : T) : (empty item).Ok N := ⟨h, Nat.zero_le N, rfl⟩

@[simp] theorem length_toList (N : Nat) (q : Queue T) : (q.toList N).length = q.length :=
  length_window ..

variable {q : Queue T}

theorem Ok.pos (h : q.Ok N) : 0 < N := Nat.lt_of_le_of_lt (Nat.zero_le _) h.tail_lt

theorem Ok.next_head (h : q.Ok N) (hne : q.length ≠ 0) :
    (q.head + 1) % N = (q.tail + q.length) % N := by
  rw [h.head_eq, Nat.mod_add_mod, Nat.add_assoc, Nat.sub_add_cancel (by omega)]

theorem Ok.push_empty (h : q.Ok N) (he : q.length = 0) (item : T) :
    (push N q item).Ok N ∧ (push N q item).toList N = [item] := by
  have hN := h.pos
  have hht : q.head = q.tail := by
    rw [h.head_eq, he, Nat.zero_sub, Nat.add_zero, Nat.mod_eq_of_lt h.tail_lt]
  rw [push, if_neg (not_not.2 he), he]
  simp only [hN, ↓reduceIte]
  refine ⟨⟨h.tail_lt, hN, ?_⟩, ?_⟩
  · rw [hht]
    exact (Nat.mod_eq_of_lt h.tail_lt).symm
  · rw [toList_mk, window, window, Nat.mod_eq_of_lt h.tail_lt, hht, Function.update_self]

theorem Ok.push_room (h : q.Ok N) (hne : q.length ≠ 0) (hroom : q.length < N) (item : T) :
    (push N q item).Ok N ∧ (push N q item).toList N = q.toList N ++ [item] := by
  have hnext := h.next_head hne
  have htail : (q.tail + q.length) % N ≠ q.tail := by
    intro he
    have h0 : (q.tail + q.length) % N = (q.tail + 0) % N := by
      rw [he, Nat.add_zero, Nat.mod_eq_of_lt h.tail_lt]
    exact hne (ring_inj hroom h.pos h0)
  rw [push, if_pos hne, hnext]
  simp only [htail, hroom, ↓reduceIte]
  refine ⟨⟨h.tail_lt, hroom, rfl⟩, ?_⟩
  rw [toList_mk, window_snoc, window_update, Function.update_self, toList]
  intro i hi he
  exact Nat.ne_of_lt hi (ring_inj (Nat.lt_trans hi hroom) hroom he)

theorem Ok.push_full (h : q.Ok N) (hfull : q.length = N) (item : T) :
    (push N q item).Ok N ∧ (push N q item).toList N = (q.toList N).tail ++ [item] := by
  cases N with
  | zero => exact absurd h.pos (Nat.lt_irrefl 0)
  | succ n =>
    have hne : q.length ≠ 0 := by omega
    have hwrap : (q.tail + (n + 1)) % (n + 1) = q.tail := by
      rw [Nat.add_mod_right, Nat.mod_eq_of_lt h.tail_lt]
    have hnext := h.next_head hne
    rw [hfull, hwrap] at hnext
    have hlast : (q.tail + 1 + n) % (n + 1) = q.tail := by
      rw [Nat.add_assoc, Nat.add_comm 1 n, hwrap]
    rw [Queue.push, if_pos hne, hnext, hfull]
    simp only [Nat.lt_irrefl, ↓reduceIte]
    refine ⟨⟨Nat.mod_lt _ (Nat.succ_pos n), Nat.le_refl _, ?_⟩, ?_⟩
    · change q.tail = ((q.tail + 1) % (n + 1) + n) % (n + 1)
      rw [Nat.mod_add_mod, hlast]
    · rw [toList_mk, window_mod, window_snoc, toList, hfull, window, List.tail_cons, hlast,
        Function.update_self, window_update]
      intro i hi he
      have hi' := ring_inj (Nat.lt_succ_of_lt hi) (Nat.lt_succ_self n) (he.trans hlast.symm)
      exact Nat.ne_of_lt hi hi'

/-- `push` appends, and drops the oldest item of a full queue. -/
theorem Ok.push (h : q.Ok N) (item : T) :
    (push N q item).Ok N ∧ (push N q item).toList N =
      (if q.length < N then q.toList N else (q.toList N).tail) ++ [item] := by
  by_cases he : q.length = 0
  · have hl : q.toList N = [] := List.length_eq_zero_iff.1 ((length_toList N q).trans he)
    rw [if_pos (he ▸ h.pos), hl]
    exact h.push_empty he item
  · by_cases hroom : q.length < N
    · rw [if_pos hroom]
      exact h.push_room he hroom item
    · rw [if_neg hroom]
      exact h.push_full (Nat.le_antisymm h.length_le (Nat.le_of_not_lt hroom)) item

theorem Ok.push_of_lt (h : q.Ok N) (hroom : q.length < N) (item : T) :
    (Queue.push N q item).Ok N ∧ (Queue.push N q item).toList N = q.toList N ++ [item] := by
  have hp := h.push item
  rwa [if_pos hroom] at hp

/-- `pop` on a queue that is not empty takes its oldest item. -/
theorem Ok.pop (h : q.Ok N) (hN : N < 2 ^ 64) (hne : q.length ≠ 0) :
    (pop N q).2.Ok N ∧ q.toList N = (pop N q).1 :: (pop N q).2.toList N := by
  have hle := h.length_le
  have hsub : wrapSub 64 q.length 1 = q.length - 1 := wrapSub_of_le (by omega) (by omega)
  obtain ⟨n, hn⟩ := Nat.exists_eq_succ_of_ne_zero hne
  rw [Queue.pop, hsub, toList, hn, window, Nat.mod_eq_of_lt h.tail_lt]
  refine ⟨?_, congrArg _ ?_⟩
  · have hhead := h.head_eq
    rw [hn] at hhead
    cases n with
    | zero => exact ⟨h.tail_lt, Nat.zero_le N, hhead⟩
    | succ n =>
      refine ⟨Nat.mod_lt _ h.pos, ?_, ?_⟩
      · change n + 1 ≤ N
        omega
      · refine hhead.trans ?_
        change (q.tail + (n + 1)) % N = ((q.tail + 1) % N + n) % N
        rw [Nat.mod_add_mod, Nat.add_right_comm, Nat.add_assoc]
  · cases n with
    | zero => rfl
    | succ n => exact (window_mod N q.items (q.tail + 1) (n + 1)).symm

end Queue
end Tupai
