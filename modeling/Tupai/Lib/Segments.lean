import Mathlib.Data.List.Pairwise
import Mathlib.Data.List.Perm.Basic
import Mathlib.Tactic.Common

namespace Tupai.Lib
set_option autoImplicit true

/-- A nonempty run of consecutive cells. -/
structure Segment where
  start : Nat
  len : Nat
  pos : 0 < len

def Segment.stop (s : Segment) : Nat := s.start + s.len

def Segment.Covers (s : Segment) (i : Nat) : Prop := s.start ≤ i ∧ i < s.stop

def Segment.Apart (s t : Segment) : Prop := s.stop ≤ t.start ∨ t.stop ≤ s.start

instance (s : Segment) (i : Nat) : Decidable (s.Covers i) :=
  inferInstanceAs (Decidable (s.start ≤ i ∧ i < s.stop))

theorem Segment.Apart.symm {s t : Segment} (h : s.Apart t) : t.Apart s := Or.symm h

instance : Std.Symm Segment.Apart := ⟨fun _ _ => Segment.Apart.symm⟩

theorem Segment.covers_start (s : Segment) : s.Covers s.start :=
  ⟨Nat.le_refl _, Nat.lt_add_of_pos_right s.pos⟩

theorem Segment.Apart.not_covers {s t : Segment} (h : s.Apart t) (hs : s.Covers i) :
    ¬ t.Covers i := by
  rintro ⟨ht, ht'⟩
  obtain ⟨hs, hs'⟩ := hs
  rcases h with h | h <;> omega

theorem Segment.apart_of_not_covers {s t : Segment} (h : ∀ i, s.Covers i → ¬ t.Covers i) :
    s.Apart t := by
  by_cases hst : s.start ≤ t.start
  · have hn := fun hs => h t.start hs t.covers_start
    refine .inl (Nat.le_of_not_lt fun hlt => hn ⟨hst, hlt⟩)
  · have hn := h s.start s.covers_start
    refine .inr (Nat.le_of_not_lt fun hlt => hn ⟨by omega, hlt⟩)

/-- The three marks of a cell map that records segments without their lengths. -/
structure Marking (τ : Type*) where
  free : τ
  head : τ
  tail : τ
  head_ne_free : head ≠ free
  tail_ne_free : tail ≠ free
  head_ne_tail : head ≠ tail

/-- The cells below `n` record exactly the listed segments. -/
structure Records (m : Marking τ) (n : Nat) (segs : List Segment) (cell : Nat → τ) : Prop where
  bounded : ∀ s ∈ segs, s.stop ≤ n
  apart : segs.Pairwise Segment.Apart
  head : ∀ s ∈ segs, cell s.start = m.head
  tail : ∀ s ∈ segs, ∀ i, s.start < i → i < s.stop → cell i = m.tail
  free : ∀ i < n, (∀ s ∈ segs, ¬ s.Covers i) → cell i = m.free

variable {m : Marking τ}

theorem Records.nil (h : ∀ i < n, cell i = m.free) : Records m n [] cell where
  bounded := by simp
  apart := .nil
  head := by simp
  tail := by simp
  free := fun i hi _ => h i hi

theorem Records.not_free (h : Records m n segs cell) (hs : s ∈ segs) (hi : s.Covers i) :
    cell i ≠ m.free := by
  obtain ⟨hlo, hhi⟩ := hi
  rcases Nat.eq_or_lt_of_le hlo with he | hlt
  · rw [← he, h.head s hs]
    exact m.head_ne_free
  · rw [h.tail s hs i hlt hhi]
    exact m.tail_ne_free

/-- The cell behind a segment is never a tail, which is what lets a map without lengths
recover where the segment ends. -/
theorem Records.stop_not_tail (h : Records m n segs cell) (hs : s ∈ segs) (hn : s.stop < n) :
    cell s.stop ≠ m.tail := by
  intro ht
  have hex : ∃ t ∈ segs, t.Covers s.stop := by
    by_contra hno
    have hf := h.free s.stop hn fun t ht hc => hno ⟨t, ht, hc⟩
    exact m.tail_ne_free (ht.symm.trans hf)
  obtain ⟨t, hmem, hlo, hhi⟩ := hex
  rcases Nat.eq_or_lt_of_le hlo with he | hlt
  · exact m.head_ne_tail ((h.head t hmem).symm.trans (he ▸ ht))
  · have hne : s ≠ t := fun he => by rw [he] at hhi; exact Nat.lt_irrefl _ hhi
    have hpos := s.covers_start.2
    rcases h.apart.forall hs hmem hne with ha | ha <;> omega

theorem Records.of_head (h : Records m n segs cell) (hi : i < n) (hc : cell i = m.head) :
    ∃ s ∈ segs, s.start = i := by
  by_contra hno
  apply m.head_ne_free
  rw [← hc]
  apply h.free i hi
  rintro s hs ⟨hlo, hhi⟩
  rcases Nat.eq_or_lt_of_le hlo with he | hlt
  · exact hno ⟨s, hs, he⟩
  · exact m.head_ne_tail (hc.symm.trans (h.tail s hs i hlt hhi))

/-- Marking a run of free cells records one more segment. -/
theorem Records.insert (h : Records m n segs cell) (s : Segment) (hb : s.stop ≤ n)
    (hfree : ∀ i, s.Covers i → cell i = m.free) (hhead : cell' s.start = m.head)
    (htail : ∀ i, s.start < i → i < s.stop → cell' i = m.tail)
    (hrest : ∀ i < n, ¬ s.Covers i → cell' i = cell i) : Records m n (s :: segs) cell' := by
  have hnew : ∀ t ∈ segs, s.Apart t := by
    intro t ht
    apply Segment.apart_of_not_covers
    intro i hs hc
    exact h.not_free ht hc (hfree i hs)
  have hkeep : ∀ t ∈ segs, ∀ i, t.Covers i → cell' i = cell i := by
    intro t ht i hi
    exact hrest i (Nat.lt_of_lt_of_le hi.2 (h.bounded t ht)) ((hnew t ht).symm.not_covers hi)
  refine ⟨?_, ?_, ?_, ?_, ?_⟩
  · exact List.forall_mem_cons.2 ⟨hb, h.bounded⟩
  · exact List.pairwise_cons.2 ⟨hnew, h.apart⟩
  · refine List.forall_mem_cons.2 ⟨hhead, fun t ht => ?_⟩
    rw [hkeep t ht _ t.covers_start, h.head t ht]
  · refine List.forall_mem_cons.2 ⟨htail, fun t ht i hlo hhi => ?_⟩
    rw [hkeep t ht i ⟨Nat.le_of_lt hlo, hhi⟩, h.tail t ht i hlo hhi]
  · intro i hi hno
    rw [List.forall_mem_cons] at hno
    rw [hrest i hi hno.1, h.free i hi hno.2]

/-- Clearing exactly the cells of a recorded segment forgets that segment. -/
theorem Records.erase (h : Records m n (s :: segs) cell)
    (hclear : ∀ i, s.Covers i → cell' i = m.free)
    (hrest : ∀ i < n, ¬ s.Covers i → cell' i = cell i) : Records m n segs cell' := by
  obtain ⟨hnew, hapart⟩ := List.pairwise_cons.1 h.apart
  have hkeep : ∀ t ∈ segs, ∀ i, t.Covers i → cell' i = cell i := by
    intro t ht i hi
    exact hrest i (Nat.lt_of_lt_of_le hi.2 (h.bounded t (.tail _ ht)))
      ((hnew t ht).symm.not_covers hi)
  refine ⟨?_, hapart, ?_, ?_, ?_⟩
  · exact fun t ht => h.bounded t (.tail _ ht)
  · intro t ht
    rw [hkeep t ht _ t.covers_start, h.head t (.tail _ ht)]
  · intro t ht i hlo hhi
    rw [hkeep t ht i ⟨Nat.le_of_lt hlo, hhi⟩, h.tail t (.tail _ ht) i hlo hhi]
  · intro i hi hno
    by_cases hs : s.Covers i
    · exact hclear i hs
    · rw [hrest i hi hs]
      exact h.free i hi (List.forall_mem_cons.2 ⟨hs, hno⟩)

theorem Records.congr (h : Records m n segs cell) (hc : ∀ i < n, cell' i = cell i) :
    Records m n segs cell' where
  bounded := h.bounded
  apart := h.apart
  head := by
    intro s hs
    rw [hc _ (Nat.lt_of_lt_of_le s.covers_start.2 (h.bounded s hs)), h.head s hs]
  tail := by
    intro s hs i hlo hhi
    rw [hc i (Nat.lt_of_lt_of_le hhi (h.bounded s hs)), h.tail s hs i hlo hhi]
  free := by
    intro i hi hno
    rw [hc i hi, h.free i hi hno]

theorem Records.perm (h : Records m n segs cell) (hp : segs.Perm segs') :
    Records m n segs' cell where
  bounded := fun s hs => h.bounded s (hp.mem_iff.2 hs)
  apart := (hp.pairwise_iff Segment.Apart.symm).1 h.apart
  head := fun s hs => h.head s (hp.mem_iff.2 hs)
  tail := fun s hs => h.tail s (hp.mem_iff.2 hs)
  free := fun i hi hno => h.free i hi fun s hs => hno s (hp.mem_iff.1 hs)

end Tupai.Lib
