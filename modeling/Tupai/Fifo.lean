import Tupai.Lib.Transition
import Tupai.Queue

namespace Tupai
open Lib
set_option autoImplicit true

/-- Appending to a list of at most `N` items, which loses its front item when it is full. -/
def pushBounded (N : Nat) (l : List T) (item : T) : List T :=
  (if l.length < N then l else l.tail) ++ [item]

theorem length_pushBounded (hN : 0 < N) (hl : l.length ≤ N) (item : T) :
    (pushBounded N l item).length ≤ N := by
  rw [pushBounded]
  split_ifs <;> simp <;> omega

theorem foldl_pushBounded (hN : 0 < N) (hl : l.length ≤ N) (items : List T) :
    items.foldl (pushBounded N) l = (l ++ items).drop (l.length + items.length - N) := by
  induction items generalizing l with
  | nil =>
    rw [List.length_nil, Nat.add_zero, Nat.sub_eq_zero_of_le hl, List.append_nil]
    rfl
  | cons item items ih =>
    rw [List.foldl_cons, ih (length_pushBounded hN hl item), List.length_cons, pushBounded]
    split_ifs with hroom
    · rw [List.length_append, List.append_assoc]
      congr 2
      simp only [List.length_singleton]
      omega
    · cases l with
      | nil => exact absurd hN hroom
      | cons x l =>
        have hlen : l.length + 1 = N := by
          rw [List.length_cons] at hl hroom
          omega
        rw [List.tail_cons, List.length_append, List.append_assoc, List.length_singleton,
          List.length_cons, hlen, Nat.add_sub_cancel_left, Nat.add_sub_cancel_left]
        rfl

/-- One call on the queue, with the list that it stands for. `pop` is called only on a queue
that is not empty. -/
inductive QueueStep (N : Nat) : Queue T × List T → Queue T × List T → Prop where
  | push (q : Queue T) (l : List T) (item : T) :
      QueueStep N (q, l) (q.push N item, pushBounded N l item)
  | pop (q : Queue T) (l : List T) : 0 < q.len → QueueStep N (q, l) ((q.pop N).2, l.tail)

/-- A queue as its member initialisers leave it; the items are not initialised. -/
def FreshQueue (s : Queue T × List T) : Prop :=
  s.1.head = 0 ∧ s.1.tail = 0 ∧ s.1.length = 0 ∧ s.2 = []

/-- What the calls return, and the slots that they use. -/
structure QueueSpec (N : Nat) (q : Queue T) (l : List T) : Prop where
  len : q.len = l.length
  bounded : l.length ≤ N
  pop : 0 < q.len → l.head? = some (q.pop N).1
  reads : q.tail < N
  writes : ∀ item, (q.push N item).head < N ∧
    (q.push N item).items = Function.update q.items (q.push N item).head item

structure Queue.Refines (N : Nat) (q : Queue T) (l : List T) : Prop where
  ok : q.Ok N
  contents : q.toList N = l

variable {q : Queue T} {l : List T}

theorem Queue.Refines.length (h : q.Refines N l) : l.length = q.length := by
  rw [← h.contents, Queue.length_toList]

theorem Queue.Refines.fresh (hN : 1 ≤ N) (h : FreshQueue (q, l)) : q.Refines N l := by
  obtain ⟨items, head, tail, length⟩ := q
  obtain ⟨rfl, rfl, rfl, rfl⟩ := h
  exact ⟨⟨hN, Nat.zero_le N, rfl⟩, rfl⟩

theorem Queue.Refines.push (h : q.Refines N l) (item : T) :
    (q.push N item).Refines N (pushBounded N l item) := by
  obtain ⟨ok', hlist⟩ := h.ok.push item
  rw [h.contents, ← h.length] at hlist
  exact ⟨ok', hlist⟩

theorem Queue.Refines.pushes (h : q.Refines N l) (items : List T) :
    (items.foldl (Queue.push N) q).Refines N (items.foldl (pushBounded N) l) := by
  induction items generalizing q l with
  | nil => exact h
  | cons item items ih => exact ih (h.push item)

theorem Queue.Refines.pop (h : q.Refines N l) (hN : N < 2 ^ 64) (hne : 0 < q.length) :
    (q.pop N).2.Refines N l.tail ∧ l.head? = some (q.pop N).1 := by
  obtain ⟨ok', hlist⟩ := h.ok.pop hN (Nat.ne_of_gt hne)
  rw [h.contents] at hlist
  subst hlist
  exact ⟨⟨ok', List.tail_cons.symm⟩, List.head?_cons⟩

theorem Queue.Ok.head_lt (h : q.Ok N) : q.head < N := by
  rw [h.head_eq]
  exact Nat.mod_lt _ h.pos

/-- `push` writes one slot, the one that `head` is at afterwards. -/
theorem Queue.push_items (N : Nat) (q : Queue T) (item : T) :
    (q.push N item).items = Function.update q.items (q.push N item).head item := by
  rw [Queue.push]
  split_ifs <;> rfl

theorem Queue.Refines.spec (h : q.Refines N l) (hN : N < 2 ^ 64) : QueueSpec N q l where
  len := h.length.symm
  bounded := h.length ▸ h.ok.length_le
  pop := fun hne => (h.pop hN hne).2
  reads := h.ok.tail_lt
  writes := fun item => ⟨(h.ok.push item).1.head_lt, q.push_items N item⟩

/-- `_queue_t` refines a bounded queue that drops its oldest item. Its size is a `size_t`. -/
theorem queue_refines (hN : 1 ≤ N) (hsize : N < 2 ^ 64)
    (hr : Reachable FreshQueue (QueueStep N) (q, l)) : QueueSpec N q l := by
  have hrun : ∀ s : Queue T × List T, Reachable FreshQueue (QueueStep N) s →
      s.1.Refines N s.2 := by
    intro s hs
    apply hs.invariant (I := fun s => s.1.Refines N s.2)
    · exact fun s hs => .fresh hN hs
    · intro s t h ht
      cases ht with
      | push q l item => exact h.push item
      | pop q l hne => exact (h.pop hsize hne).1
  exact (hrun _ hr).spec hsize

theorem queue_refines_one : QueueSpec 1 (((Queue.empty 0).push 1 7).push 1 8) [8] :=
  queue_refines (Nat.le_refl 1) (by decide)
    (((Reachable.init ⟨rfl, rfl, rfl, rfl⟩).step (.push (.empty 0) [] 7)).step (.push _ _ 8))

end Tupai
