import Tupai.Conv

namespace Tupai
set_option autoImplicit true

/-- What `__readline` leaves: the buffer, the characters that it wrote to the terminal, and the
input that it did not read. -/
structure Line where
  buff : Buffer
  echo : Chars
  rest : Chars

/-- A line with some more characters written to the terminal first. -/
def Line.echoed (cs : Chars) (r : Line) : Line := { r with echo := cs ++ r.echo }

/-- `c == '\r' || c == '\n'` -/
def IsLineEnd (c : Byte) : Prop := c = 0x0D#8 ∨ c = 0x0A#8

instance (c : Byte) : Decidable (IsLineEnd c) := inferInstanceAs (Decidable (_ ∨ _))

/-- The loop of `__readline`, and the NUL that is stored after it. At the end of the input it would
wait for more. -/
def readlineLoop (n : Nat) : (input : Chars) → (i : Nat) → (buff : Buffer) → Option Line
  | [], i, buff => if i + 1 < n then none else some ⟨buff.set i 0#8, [], []⟩
  | c :: input, i, buff =>
    if i + 1 < n then
      if c = 0x08#8 then
        if i > 0 then
          (readlineLoop n input (i - 1) buff).map (Line.echoed [0x08#8, 0x20#8, 0x08#8])
        else readlineLoop n input i buff
      else if IsLineEnd c then some ⟨buff.set i 0#8, [c], input⟩
      else if c ≠ 0#8 then
        (readlineLoop n input (i + 1) (buff.set i c)).map (Line.echoed [c])
      else (readlineLoop n input i buff).map (Line.echoed [c])
    else some ⟨buff.set i 0#8, [], c :: input⟩

def readline (n : Nat) (input : Chars) (buff : Buffer) : Option Line := readlineLoop n input 0 buff

def typeKey (text : Chars) (c : Byte) : Chars :=
  if c = 0x08#8 then text.dropLast else if c = 0#8 then text else text ++ [c]

/-- The reference editor. It stops at a line end, or as soon as the text has `n - 1` characters. -/
def edit (n : Nat) : (input : Chars) → (text : Chars) → Option Chars
  | [], text => if text.length = n - 1 then some text else none
  | c :: input, text =>
    if text.length = n - 1 then some text
    else if IsLineEnd c then some text
    else edit n input (typeKey text c)

/-- The input has a line end, or enough characters. -/
def Suffices (n : Nat) (input : Chars) : Prop :=
  (∃ c ∈ input, IsLineEnd c) ∨ ∃ k, ((input.take k).foldl typeKey []).length = n - 1

/-- What is on the terminal after these characters. A NUL does not show. -/
def replay : (echo : Chars) → (shown : Chars) → Chars
  | 0x08#8 :: 0x20#8 :: 0x08#8 :: echo, shown => replay echo shown.dropLast
  | c :: echo, shown =>
    if c = 0#8 ∨ IsLineEnd c then replay echo shown else replay echo (shown ++ [c])
  | [], shown => shown

structure Edited (n : Nat) (buff : Buffer) (shown text : Chars) (r : Line) : Prop where
  fits : text.length < n
  held : ∀ k ≤ text.length, r.buff k = (text ++ [0#8])[k]?
  bounded : ∀ k ≥ n, r.buff k = buff k
  echo : replay r.echo shown = text

theorem replay_erase (echo shown : Chars) :
    replay ([0x08#8, 0x20#8, 0x08#8] ++ echo) shown = replay echo shown.dropLast := by
  rw [List.cons_append, List.cons_append, List.cons_append, List.nil_append, replay]

theorem replay_char (hc : c ≠ 0x08#8) (echo shown : Chars) :
    replay ([c] ++ echo) shown =
      if c = 0#8 ∨ IsLineEnd c then replay echo shown else replay echo (shown ++ [c]) := by
  rw [List.cons_append, List.nil_append, replay]
  rintro echo rfl
  exact absurd rfl hc

/-- The characters before the index are those of the text. -/
def Holds (buff : Buffer) (text : Chars) : Prop := ∀ k < text.length, buff k = text[k]?

variable {n : Nat} {buff : Buffer} {text shown : Chars} {r : Line}

theorem Holds.snoc (h : Holds buff text) (c : Byte) :
    Holds (buff.set text.length c) (text ++ [c]) := by
  intro k hk
  rw [Buffer.set]
  rcases Nat.lt_or_eq_of_le (Nat.le_of_lt_succ (hk.trans_eq List.length_append)) with hlt | rfl
  · rw [Function.update_of_ne (Nat.ne_of_lt hlt), List.getElem?_append_left hlt]
    exact h k hlt
  · rw [Function.update_self, List.getElem?_concat_length]

theorem Holds.dropLast (h : Holds buff text) : Holds buff text.dropLast := by
  intro k hk
  rw [List.length_dropLast] at hk
  rw [h k (by omega), List.getElem?_dropLast, if_pos hk]

theorem Edited.stop (h : Holds buff text) (hlt : text.length < n) (rest : Chars)
    (hecho : replay cs text = text) :
    Edited n buff text text ⟨buff.set text.length 0#8, cs, rest⟩ where
  fits := hlt
  held k hk := h.snoc 0#8 k (by rw [List.length_append]; exact Nat.lt_succ_of_le hk)
  bounded k hk := Function.update_of_ne (by omega) _ _
  echo := hecho

theorem Edited.store (h : Edited n (buff.set text.length c) (text ++ [c]) text' r)
    (hlt : text.length + 1 < n) (hback : c ≠ 0x08#8) (hshow : ¬ (c = 0#8 ∨ IsLineEnd c)) :
    Edited n buff text text' (r.echoed [c]) where
  fits := h.fits
  held := h.held
  bounded k hk := (h.bounded k hk).trans (Function.update_of_ne (by omega) _ _)
  echo := by
    refine (replay_char hback r.echo text).trans ?_
    rw [if_neg hshow]
    exact h.echo

theorem Edited.erase (h : Edited n buff text.dropLast text' r) :
    Edited n buff text text' (r.echoed [0x08#8, 0x20#8, 0x08#8]) where
  fits := h.fits
  held := h.held
  bounded := h.bounded
  echo := (replay_erase r.echo text).trans h.echo

theorem Edited.hidden (h : Edited n buff text text' r) :
    Edited n buff text text' (r.echoed [0#8]) where
  fits := h.fits
  held := h.held
  bounded := h.bounded
  echo := by
    refine (replay_char (by decide) r.echo text).trans ?_
    rw [if_pos (.inl rfl)]
    exact h.echo

theorem readlineLoop_edits (h : Holds buff text) (hlt : text.length < n)
    (hedit : edit n input text = some text') :
    ∃ r, readlineLoop n input text.length buff = some r ∧ Edited n buff text text' r := by
  induction input generalizing text buff with
  | nil =>
    rw [edit] at hedit
    split_ifs at hedit with hfull
    obtain rfl := Option.some.inj hedit
    exact ⟨_, if_neg (by omega), .stop h hlt [] rfl⟩
  | cons c input ih =>
    rw [edit] at hedit
    rw [readlineLoop]
    split_ifs at hedit with hfull hend
    · obtain rfl := Option.some.inj hedit
      rw [if_neg (by omega)]
      exact ⟨_, rfl, .stop h hlt _ rfl⟩
    · obtain rfl := Option.some.inj hedit
      have hback : c ≠ 0x08#8 := by
        rintro rfl
        exact absurd hend (by decide)
      rw [if_pos (by omega), if_neg hback, if_pos hend]
      refine ⟨_, rfl, .stop h hlt _ ?_⟩
      refine (replay_char hback [] text).trans ?_
      rw [if_pos (.inr hend)]
      rfl
    · have hroom : text.length + 1 < n := by omega
      rw [if_pos hroom]
      rw [typeKey] at hedit
      split_ifs at hedit with hback hzero
      · rw [if_pos hback]
        have hlen : text.dropLast.length = text.length - 1 := List.length_dropLast
        split_ifs with hpos
        · obtain ⟨r, he, hr⟩ := ih h.dropLast (by omega) hedit
          rw [hlen] at he
          exact ⟨_, by rw [he]; rfl, hr.erase⟩
        · have hempty := Nat.le_zero.1 (Nat.le_of_not_lt hpos)
          obtain rfl : text = [] := List.length_eq_zero_iff.1 hempty
          exact ih h hlt hedit
      · obtain ⟨r, he, hr⟩ := ih h hlt hedit
        subst hzero
        rw [if_neg hback, if_neg hend, if_neg (not_not.2 rfl), he]
        exact ⟨_, rfl, hr.hidden⟩
      · have hlen : (text ++ [c]).length = text.length + 1 := List.length_append
        obtain ⟨r, he, hr⟩ := ih (h.snoc c) (by omega) hedit
        rw [hlen] at he
        rw [if_neg hback, if_neg hend, if_pos hzero, he]
        exact ⟨_, rfl, hr.store hroom hback (not_or.2 ⟨hzero, hend⟩)⟩

theorem edit_lineEnd (h : ∃ c ∈ input, IsLineEnd c) (text : Chars) :
    ∃ text', edit n input text = some text' := by
  induction input generalizing text with
  | nil =>
    obtain ⟨c, hmem, -⟩ := h
    exact absurd hmem List.not_mem_nil
  | cons c input ih =>
    rw [edit]
    split_ifs with hfull hend
    · exact ⟨_, rfl⟩
    · exact ⟨_, rfl⟩
    · refine ih ?_ _
      obtain ⟨c', hmem, hc'⟩ := h
      rcases List.mem_cons.1 hmem with rfl | hmem
      · exact absurd hc' hend
      · exact ⟨c', hmem, hc'⟩

theorem edit_full (h : ((input.take k).foldl typeKey text).length = n - 1) :
    ∃ text', edit n input text = some text' := by
  induction input generalizing text k with
  | nil =>
    rw [List.take_nil] at h
    exact ⟨text, if_pos h⟩
  | cons c input ih =>
    rw [edit]
    split_ifs with hfull hend
    · exact ⟨_, rfl⟩
    · exact ⟨_, rfl⟩
    · cases k with
      | zero => exact absurd h hfull
      | succ k =>
        rw [List.take_succ_cons, List.foldl_cons] at h
        exact ih h

/-- `__readline` ends, and leaves what the reference editor makes of the input. -/
theorem readline_edits (hn : 1 ≤ n) (hinput : Suffices n input) (buff : Buffer) :
    ∃ text r, edit n input [] = some text ∧ readline n input buff = some r ∧
      Edited n buff [] text r := by
  have hstops : ∃ text, edit n input [] = some text := by
    rcases hinput with hend | ⟨k, hk⟩
    · exact edit_lineEnd hend []
    · exact edit_full hk
  obtain ⟨text, hedit⟩ := hstops
  have hnone : Holds buff [] := fun k hk => absurd hk (Nat.not_lt_zero k)
  obtain ⟨r, he, hr⟩ := readlineLoop_edits hnone hn hedit
  exact ⟨text, r, hedit, he, hr⟩

theorem readline_edits_typo : ∃ text r, edit 8 [0x68#8, 0x69#8, 0x08#8, 0x0A#8] [] = some text ∧
    readline 8 [0x68#8, 0x69#8, 0x08#8, 0x0A#8] (fun _ => none) = some r ∧
      Edited 8 (fun _ => none) [] text r :=
  readline_edits (by decide) (.inl ⟨0x0A#8, by decide, .inr rfl⟩) _

end Tupai
