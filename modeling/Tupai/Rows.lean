import Tupai.Screen

namespace Tupai
open Lib
set_option autoImplicit true

/-- A character of a text without erasing. -/
def Plain (c : Byte) : Prop := c.toNat < 0x80 ∧ c ≠ 0x08#8

instance (c : Byte) : Decidable (Plain c) := inferInstanceAs (Decidable (_ ∧ _))

/-- A character that takes a cell of its own in a row. -/
def TakesCell (c : Byte) : Prop := c ≠ 0x0A#8 ∧ c ≠ 0x08#8 ∧ c ≠ 0x0D#8

instance (c : Byte) : Decidable (TakesCell c) := inferInstanceAs (Decidable (_ ∧ _ ∧ _))

/-- `tty_write('\b'); tty_write(' '); tty_write('\b');` -/
def eraseChars : Chars := [0x08#8, 0x20#8, 0x08#8]

/-- The row that the text ends in. -/
def lastRow (shown : Chars) : Chars := (logicalRows [] shown).getLastD []

/-- The number of cells in front of the cursor, those of full rows included. -/
def cursorPos (shown : Chars) : Nat :=
  80 * ((logicalRows [] shown).length - 1) + (lastRow shown).length

/-- The cells of the screen, and the row and the column of the cursor. -/
structure ScreenAt (t : Textmode) (b : Int → BitVec 16) (i j : Int) : Prop where
  buffer : t.buffer = b
  row : t.row = i
  col : t.col = j

/-- The screen shows the rows of a text from row `top` on. -/
structure ShowsFrom (t : Textmode) (shown : Chars) (top : Nat) : Prop where
  shows : Shows t ((logicalRows [] shown).drop top)
  top_lt : top < (logicalRows [] shown).length

/-- The screen shows the end of a text. It has not scrolled further than `slack` more characters
need. -/
def Displays (t : Textmode) (shown : Chars) (slack : Nat) : Prop :=
  ∃ top, ShowsFrom t shown top ∧ (top = 0 ∨ 80 * (top + 24) ≤ cursorPos shown + slack)

variable {t : Textmode} {shown cs : Chars}

theorem logicalRows_ne_nil (row cs : Chars) : logicalRows row cs ≠ [] :=
  List.ne_nil_of_length_pos (logicalRows_pos row cs)

theorem logicalRows_getLastD (row cs d : Chars) :
    (logicalRows row cs).getLastD d = (logicalRows row cs).getLast (logicalRows_ne_nil row cs) := by
  rw [List.getLastD_eq_getLast?, List.getLast?_eq_some_getLast, Option.getD_some]

theorem logicalRows_split (row cs d : Chars) :
    logicalRows row cs = (logicalRows row cs).dropLast ++ [(logicalRows row cs).getLastD d] := by
  rw [logicalRows_getLastD, List.dropLast_concat_getLast]

/-- The rows of a longer text go on in the last row. -/
theorem logicalRows_append (row cs ds d : Chars) :
    logicalRows row (cs ++ ds) =
      (logicalRows row cs).dropLast ++ logicalRows ((logicalRows row cs).getLastD d) ds := by
  induction cs generalizing row d with
  | nil => rfl
  | cons c cs ih =>
    rw [List.cons_append, logicalRows, logicalRows]
    split_ifs with hline hreturn hfull
    · rw [ih [] row, List.dropLast_cons_of_ne_nil (logicalRows_ne_nil [] cs), List.getLastD_cons,
        List.cons_append]
    · exact ih row d
    · rw [ih [] (row ++ [c]), List.dropLast_cons_of_ne_nil (logicalRows_ne_nil [] cs),
        List.getLastD_cons, List.cons_append]
    · exact ih _ d

theorem logicalRows_lastRow (shown : Chars) :
    logicalRows [] shown = (logicalRows [] shown).dropLast ++ [lastRow shown] :=
  logicalRows_split [] shown []

theorem lastRow_lt (shown : Chars) : (lastRow shown).length < 80 :=
  logicalRows_last (by decide) shown []

/-- One more cell ends the row, or it does not. -/
theorem logicalRows_snoc (hline : c ≠ 0x0A#8) (hreturn : c ≠ 0x0D#8) (shown : Chars) :
    logicalRows [] (shown ++ [c]) = (logicalRows [] shown).dropLast ++
      if (lastRow shown).length + 1 = 80 then [lastRow shown ++ [c], []]
      else [lastRow shown ++ [c]] := by
  rw [logicalRows_append [] shown [c] [], logicalRows, if_neg hline, if_neg hreturn]
  rfl

theorem cursorPos_snoc (hline : c ≠ 0x0A#8) (hreturn : c ≠ 0x0D#8) (shown : Chars) :
    cursorPos (shown ++ [c]) = cursorPos shown + 1 := by
  have hpos := logicalRows_pos [] shown
  have hlen : (logicalRows [] shown).dropLast.length = (logicalRows [] shown).length - 1 :=
    List.length_dropLast
  rw [cursorPos, lastRow, logicalRows_snoc hline hreturn, cursorPos]
  split_ifs with hfull
  · rw [List.append_cons, List.getLastD_concat, List.length_append, List.length_append, hlen]
    simp only [List.length_nil, List.length_singleton]
    omega
  · rw [List.getLastD_concat, List.length_append, List.length_append, hlen]
    simp only [List.length_singleton]
    omega

theorem cursorPos_le_append (shown cs : Chars) : cursorPos shown ≤ cursorPos (shown ++ cs) := by
  induction cs generalizing shown with
  | nil => rw [List.append_nil]
  | cons c cs ih =>
    rw [List.append_cons]
    refine Nat.le_trans ?_ (ih (shown ++ [c]))
    by_cases hline : c = 0x0A#8
    · have hlast := lastRow_lt shown
      have hsplit : logicalRows [] (shown ++ [c]) = logicalRows [] shown ++ [[]] := by
        rw [logicalRows_append [] shown [c] [], logicalRows, if_pos hline]
        conv_rhs => rw [logicalRows_split [] shown []]
        exact List.append_cons ..
      rw [cursorPos, cursorPos, lastRow, lastRow, hsplit, List.getLastD_concat, List.length_append]
      have hpos := logicalRows_pos [] shown
      rw [lastRow] at hlast
      simp only [List.length_nil, List.length_singleton]
      omega
    · by_cases hreturn : c = 0x0D#8
      · have hsame : logicalRows [] (shown ++ [c]) = logicalRows [] shown := by
          rw [logicalRows_append [] shown [c] [], logicalRows, if_neg hline, if_pos hreturn]
          exact (logicalRows_split [] shown []).symm
        rw [cursorPos, cursorPos, lastRow, lastRow, hsame]
      · rw [cursorPos_snoc hline hreturn]
        exact Nat.le_succ _

/-- What is printed after a text is shown after it. -/
theorem ShowsFrom.print (h : ShowsFrom t shown top) (hcs : ∀ c ∈ cs, Plain c) :
    ShowsFrom (textmodePrint cs t) (shown ++ cs) top := by
  obtain ⟨hshows, htop⟩ := h
  have hrest := logicalRows_pos (lastRow shown) cs
  have hle : top ≤ (logicalRows [] shown).dropLast.length := by
    rw [List.length_dropLast]
    omega
  have happ : logicalRows [] (shown ++ cs) =
      (logicalRows [] shown).dropLast ++ logicalRows (lastRow shown) cs :=
    logicalRows_append [] shown cs []
  rw [logicalRows_lastRow, List.drop_append_of_le_length hle] at hshows
  constructor
  · rw [happ, List.drop_append_of_le_length hle]
    exact hshows.print (lastRow_lt shown) hcs
  · rw [happ, List.length_append]
    omega

theorem Displays.print (h : Displays t shown slack) (hcs : ∀ c ∈ cs, Plain c)
    (hslack : cursorPos shown + slack ≤ cursorPos (shown ++ cs) + slack') :
    Displays (textmodePrint cs t) (shown ++ cs) slack' := by
  obtain ⟨top, hfrom, htop⟩ := h
  refine ⟨top, hfrom.print hcs, ?_⟩
  omega

theorem Displays.mono (h : Displays t shown slack) (hle : slack ≤ slack') :
    Displays t shown slack' := by
  obtain ⟨top, hfrom, htop⟩ := h
  refine ⟨top, hfrom, ?_⟩
  omega

theorem Displays.init (buffer : Int → BitVec 16) (crtc : Crtc) (slack : Nat) :
    Displays (textmodeInit buffer crtc) [] slack :=
  ⟨0, ⟨Shows.init buffer crtc, Nat.one_pos⟩, .inl rfl⟩

/-- Writing a character does not scroll where the cursor stays on the screen. -/
theorem textmodeWrite_at (h : ScreenAt (textmodeSwitch c t) b i j) (hj : j < 80) (hi : i < 25) :
    ScreenAt (textmodeWrite c t) b i j := by
  have hcolMax : colMax = 80 := rfl
  have hrowMax : rowMax = 25 := rfl
  have hidle : textmodeWrap (textmodeSwitch c t) = textmodeSwitch c t := by
    rw [textmodeWrap_lt (by rw [h.col]; omega)]
    exact scrollDown_lt _ (by rw [h.row]; omega)
  rw [textmodeWrite, hidle]
  exact ⟨h.buffer, h.row, h.col⟩

theorem ScreenAt.back (h : ScreenAt t b i j) (hj : 0 < j ∧ j < 80) (hi : i < 25) :
    ScreenAt (textmodeWrite 0x08#8 t) b i (j - 1) := by
  apply textmodeWrite_at
  · rw [textmodeSwitch, if_neg (by decide), if_pos rfl, if_pos (by rw [h.col]; omega)]
    exact ⟨h.buffer, h.row, congrArg (· - 1) h.col⟩
  · omega
  · exact hi

/-- From the first column the cursor goes back to the end of the row above. -/
theorem ScreenAt.back_up (h : ScreenAt t b i 0) (hi : 0 < i ∧ i < 25) :
    ScreenAt (textmodeWrite 0x08#8 t) b (i - 1) 79 := by
  apply textmodeWrite_at
  · rw [textmodeSwitch, if_neg (by decide), if_pos rfl, if_neg (not_not.2 h.col),
      if_pos (by rw [h.row]; omega)]
    exact ⟨h.buffer, congrArg (· - 1) h.row, rfl⟩
  · decide
  · omega

theorem ScreenAt.put (h : ScreenAt t b i j) (hc : TakesCell c) :
    ScreenAt (textmodeSwitch c t) (Function.update b (80 * i + j) (cell c)) i (j + 1) := by
  rw [textmodeSwitch, if_neg hc.1, if_neg hc.2.1, if_neg hc.2.2]
  refine ⟨?_, h.row, congrArg (· + 1) h.col⟩
  rw [Textmode.put_buffer, h.buffer, h.row, h.col, colMax]

theorem ScreenAt.blank (h : ScreenAt t b i j) (hj : j + 1 < 80) (hi : i < 25) :
    ScreenAt (textmodeWrite 0x20#8 t) (Function.update b (80 * i + j) (cell 0x20#8)) i (j + 1) :=
  textmodeWrite_at (h.put (by decide)) hj hi

/-- A cell at the end of a row takes the cursor to the next one. -/
theorem ScreenAt.blank_full (h : ScreenAt t b i 79) (hi : i + 1 < 25) :
    ScreenAt (textmodeWrite 0x20#8 t) (Function.update b (80 * i + 79) (cell 0x20#8)) (i + 1)
      0 := by
  have hput := h.put (c := 0x20#8) (by decide)
  have hfull : (textmodeSwitch 0x20#8 t).col ≥ colMax := by
    rw [hput.col]
    decide
  have hidle : textmodeWrap (textmodeSwitch 0x20#8 t) = (textmodeSwitch 0x20#8 t).newline := by
    have hrowMax : rowMax = 25 := rfl
    rw [textmodeWrap_full hfull, textmodeWrap_lt (by rw [Textmode.newline_col]; decide)]
    exact scrollDown_lt _ (by rw [Textmode.newline_row, hput.row]; omega)
  rw [textmodeWrite, hidle]
  exact ⟨hput.buffer, congrArg (· + 1) hput.row, rfl⟩

theorem ScreenAt.erase (h : ScreenAt t b i (j + 1)) (hj : 0 ≤ j ∧ j + 1 < 80) (hi : i < 25) :
    ScreenAt (textmodePrint eraseChars t) (Function.update b (80 * i + j) (cell 0x20#8)) i j := by
  have hback := h.back ⟨by omega, hj.2⟩ hi
  rw [Int.add_sub_cancel] at hback
  have hagain := (hback.blank hj.2 hi).back ⟨by omega, hj.2⟩ hi
  rwa [Int.add_sub_cancel] at hagain

/-- Erasing across the start of a row ends in the row above. -/
theorem ScreenAt.erase_up (h : ScreenAt t b (i + 1) 0) (hi : 0 ≤ i ∧ i + 1 < 25) :
    ScreenAt (textmodePrint eraseChars t) (Function.update b (80 * i + 79) (cell 0x20#8)) i 79 := by
  have hback := h.back_up ⟨by omega, hi.2⟩
  rw [Int.add_sub_cancel] at hback
  have hagain := (hback.blank_full hi.2).back_up ⟨by omega, hi.2⟩
  rwa [Int.add_sub_cancel] at hagain

/-- The cells of the rows without their last character. -/
theorem shownCell_erase {b : Int → BitVec 16} {i j : Nat}
    (hcell : b (80 * i + j) = shownCell (rows ++ [last ++ [c]]) i j) (hlast : last.length < 80)
    (hj : j < 80) :
    Function.update b (80 * rows.length + last.length) (cell 0x20#8) (80 * i + j) =
      shownCell (rows ++ [last]) i j := by
  rw [shownCell_snoc] at hcell
  by_cases he : i = rows.length ∧ j = last.length
  · obtain ⟨rfl, rfl⟩ := he
    rw [Function.update_self, cell_eq 0x20#8 (by decide), shownCell, List.getElem?_concat_length,
      Option.getD_some, List.getElem?_eq_none (Nat.le_refl _)]
    rfl
  · rw [if_neg he] at hcell
    rw [Function.update_of_ne (by omega), hcell]

theorem Shows.erase (h : Shows t (done ++ [last ++ [c]])) (hlast : last.length + 1 < 80) :
    Shows (textmodePrint eraseChars t) (done ++ [last]) := by
  have hlen (r : Chars) : (done ++ [r]).length = done.length + 1 := List.length_append
  have hrest : (done.drop (done.length - 24)).length = min done.length 24 := by
    rw [List.length_drop]
    omega
  have hrow := h.row
  have hcol := h.col
  rw [hlen] at hrow
  rw [List.getLastD_concat, List.length_append, List.length_singleton] at hcol
  have hat : ScreenAt t t.buffer (done.drop (done.length - 24)).length (last.length + 1) :=
    ⟨rfl, by omega, by omega⟩
  have herase := hat.erase ⟨by omega, by omega⟩ (by omega)
  constructor
  · intro i j hi hj
    rw [drop_snoc, herase.buffer]
    refine shownCell_erase (c := c) ?_ (by omega) hj
    rw [h.cells i j hi hj, drop_snoc]
  · rw [herase.row, hlen]
    omega
  · rw [herase.col, List.getLastD_concat]

/-- Where the erased character was the last of a full row, the row above is the last one again. What
scrolled away for the new row does not come back. -/
theorem Shows.erase_up (h : Shows t (done ++ [last ++ [c]] ++ [[]])) (hlast : last.length = 79) :
    Shows (textmodePrint eraseChars t) (done.drop (done.length - 23) ++ [last]) := by
  have hlen : (done ++ [last ++ [c]] ++ [[]]).length = done.length + 2 := by
    rw [List.length_append, List.length_append]
    rfl
  have hrest : (done.drop (done.length - 23)).length = min done.length 23 := by
    rw [List.length_drop]
    omega
  have hrow := h.row
  have hcol := h.col
  rw [hlen] at hrow
  rw [List.getLastD_concat] at hcol
  have hat : ScreenAt t t.buffer ((done.drop (done.length - 23)).length + 1) 0 :=
    ⟨rfl, by omega, hcol⟩
  have herase := hat.erase_up ⟨by omega, by omega⟩
  have hlen' : (done.drop (done.length - 23) ++ [last]).length = min done.length 23 + 1 := by
    rw [List.length_append, hrest]
    rfl
  constructor
  · intro i j hi hj
    rw [hlen', Nat.sub_eq_zero_of_le (by omega), List.drop_zero, herase.buffer]
    have hcell := h.cells i j hi hj
    rw [drop_snoc, List.length_append, List.length_singleton, shownCell_snoc_nil,
      show done.length + 1 - 24 = done.length - 23 by omega,
      List.drop_append_of_le_length (by omega)] at hcell
    have hblank := shownCell_erase hcell (by omega) hj
    rwa [hlast] at hblank
  · rw [herase.row, hlen']
    omega
  · rw [herase.col, List.getLastD_concat, hlast]
    rfl

/-- Erasing takes the last cell of the text away. -/
theorem Displays.erase (h : Displays t (shown ++ [c]) slack) (hline : c ≠ 0x0A#8)
    (hreturn : c ≠ 0x0D#8) (hslack : slack < 80) :
    Displays (textmodePrint eraseChars t) shown (slack + 1) := by
  obtain ⟨top, ⟨hshows, htop⟩, hbound⟩ := h
  have hpos := cursorPos_snoc hline hreturn shown
  have hrows := logicalRows_snoc hline hreturn shown
  have hlast := lastRow_lt shown
  have hlen : (logicalRows [] shown).length = (logicalRows [] shown).dropLast.length + 1 := by
    rw [List.length_dropLast]
    have := logicalRows_pos [] shown
    omega
  have hcursor : cursorPos shown =
      80 * (logicalRows [] shown).dropLast.length + (lastRow shown).length := by
    rw [cursorPos, List.length_dropLast]
  rw [hrows] at hshows htop
  generalize hdone : (logicalRows [] shown).dropLast = done at *
  have hshown : logicalRows [] shown = done ++ [lastRow shown] := by
    rw [← hdone]
    exact logicalRows_lastRow shown
  split_ifs at hshows htop with hfull
  · have hle : top ≤ done.length := by omega
    rw [List.drop_append_of_le_length hle, List.append_cons] at hshows
    have herase := hshows.erase_up (by omega)
    rw [List.drop_drop, List.length_drop] at herase
    have hle' : top + (done.length - top - 23) ≤ done.length := by omega
    refine ⟨top + (done.length - top - 23), ⟨?_, by omega⟩, by omega⟩
    rw [hshown, List.drop_append_of_le_length hle']
    exact herase
  · rw [List.length_append, List.length_singleton] at htop
    have hle : top ≤ done.length := by omega
    rw [List.drop_append_of_le_length hle] at hshows
    refine ⟨top, ⟨?_, by omega⟩, by omega⟩
    rw [hshown, List.drop_append_of_le_length hle]
    exact hshows.erase (by omega)

/-- All the rows that fit are shown, but for one that may have scrolled away too early. -/
theorem Displays.rows (h : Displays t shown slack) (hslack : slack < 80) :
    ∃ top, Shows t ((logicalRows [] shown).drop top) ∧ top < (logicalRows [] shown).length ∧
      (top = 0 ∨ top + 24 ≤ (logicalRows [] shown).length) := by
  obtain ⟨top, ⟨hshows, htop⟩, hbound⟩ := h
  have hlast := lastRow_lt shown
  refine ⟨top, hshows, htop, hbound.imp_right fun hle => ?_⟩
  rw [cursorPos] at hle
  omega

end Tupai
