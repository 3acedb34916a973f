import Tupai.Str
import Tupai.Textmode

namespace Tupai
open Lib
set_option autoImplicit true

/-- The logical rows of a text, where `row` is what is already in the first of them. A row ends at a
newline and after its 80th character, and a carriage return is ignored. -/
def logicalRows (row : Chars) : (cs : Chars) → List Chars
  | [] => [row]
  | c :: cs =>
    if c = 0x0A#8 then row :: logicalRows [] cs
    else if c = 0x0D#8 then logicalRows row cs
    else if row.length + 1 = 80 then (row ++ [c]) :: logicalRows [] cs
    else logicalRows (row ++ [c]) cs

def colored (c : Byte) : BitVec 16 := 0x0F#8 ++ c

/-- What a screen with these rows at its top shows in row `i` and column `j`. -/
def shownCell (rows : List Chars) (i j : Nat) : BitVec 16 :=
  colored ((rows[i]?.getD [])[j]?.getD 0x20#8)

/-- The screen shows the last 25 of the rows, and the cursor is at the end of the last one. -/
structure Shows (t : Textmode) (rows : List Chars) : Prop where
  cells : ∀ i j : Nat, i < 25 → j < 80 →
    t.buffer (80 * i + j) = shownCell (rows.drop (rows.length - 25)) i j
  row : t.row = min rows.length 25 - 1
  col : t.col = (rows.getLastD []).length

theorem shownCell_snoc_nil (rows : List Chars) (i j : Nat) :
    shownCell (rows ++ [[]]) i j = shownCell rows i j := by
  rw [shownCell, shownCell]
  rcases Nat.lt_or_ge i rows.length with h | h
  · rw [List.getElem?_append_left h]
  · rw [List.getElem?_append_right h, List.getElem?_eq_none h]
    cases i - rows.length <;> rfl

theorem shownCell_tail (rows : List Chars) (i j : Nat) :
    shownCell (rows.drop 1) i j = shownCell rows (i + 1) j := by
  rw [shownCell, shownCell, List.getElem?_drop, Nat.add_comm]

theorem shownCell_of_le (h : rows.length ≤ i) : shownCell rows i j = colored 0x20#8 := by
  rw [shownCell, List.getElem?_eq_none h]
  rfl

/-- A character at the end of the last row is shown there, and changes nothing else. -/
theorem shownCell_snoc (rows : List Chars) (last : Chars) (c : Byte) (i j : Nat) :
    shownCell (rows ++ [last ++ [c]]) i j =
      if i = rows.length ∧ j = last.length then colored c else shownCell (rows ++ [last]) i j := by
  rw [shownCell, shownCell]
  rcases Nat.lt_trichotomy i rows.length with h | rfl | h
  · rw [if_neg fun he => Nat.ne_of_lt h he.1, List.getElem?_append_left h,
      List.getElem?_append_left h]
  · rw [List.getElem?_concat_length, List.getElem?_concat_length, Option.getD_some,
      Option.getD_some]
    rcases Nat.lt_trichotomy j last.length with h | rfl | h
    · rw [if_neg fun he => Nat.ne_of_lt h he.2, List.getElem?_append_left h]
    · rw [if_pos ⟨rfl, rfl⟩, List.getElem?_concat_length, Option.getD_some]
    · have hlen : (last ++ [c]).length ≤ j := by
        rwa [List.length_append, List.length_singleton]
      rw [if_neg fun he => Nat.ne_of_gt h he.2, List.getElem?_eq_none hlen,
        List.getElem?_eq_none (Nat.le_of_lt h)]
  · have hlen (r : Chars) : (rows ++ [r]).length ≤ i := by
      rwa [List.length_append, List.length_singleton]
    rw [if_neg fun he => Nat.ne_of_gt h he.1, List.getElem?_eq_none (hlen _),
      List.getElem?_eq_none (hlen _)]

theorem cell_eq : ∀ c : Byte, c.toNat < 0x80 → cell c = colored c := by decide

theorem drop_snoc (done : List Chars) (last : Chars) :
    (done ++ [last]).drop ((done ++ [last]).length - 25) =
      done.drop (done.length - 24) ++ [last] := by
  have hlen : (done ++ [last]).length - 25 = done.length - 24 := by
    rw [List.length_append, List.length_singleton]
    omega
  rw [hlen, List.drop_append_of_le_length (Nat.sub_le ..)]

theorem shownCell_newRow (rows : List Chars) (i j : Nat) :
    shownCell ((rows ++ [[]]).drop ((rows ++ [[]]).length - 25)) i j =
      if rows.length < 25 then shownCell (rows.drop (rows.length - 25)) i j
      else shownCell (rows.drop (rows.length - 25)) (i + 1) j := by
  rw [drop_snoc, shownCell_snoc_nil]
  split_ifs with h
  · rw [Nat.sub_eq_zero_of_le (Nat.le_of_lt h), Nat.sub_eq_zero_of_le (Nat.le_of_lt_succ h)]
  · rw [← shownCell_tail, List.drop_drop]
    congr 2
    omega

/-- A new row follows the last one, if need be after the screen has scrolled. -/
theorem Shows.newRow (h : Shows t rows) (hpos : 0 < rows.length) :
    Shows (textmodeWrap t.newline) (rows ++ [[]]) := by
  have hrow := h.row
  have hlen : (rows ++ [[]]).length = rows.length + 1 := List.length_append
  have hmax : rowMax = 25 := rfl
  have hcol : t.newline.col < colMax := by
    rw [Textmode.newline_col]
    decide
  have hnext := t.newline_row
  rw [textmodeWrap_lt hcol]
  rcases Nat.lt_or_ge rows.length 25 with hlt | hge
  · rw [scrollDown_lt _ (by omega)]
    constructor
    · intro i j hi hj
      rw [shownCell_newRow, if_pos hlt]
      exact h.cells i j hi hj
    · omega
    · rw [List.getLastD_concat]
      rfl
  · have hfuel : (t.newline.row - rowMax + 1).toNat = 1 := by omega
    rw [hfuel, scrollDown, if_pos (by omega)]
    have hscroll := textmodeScroll_spec t.newline
    constructor
    · intro i j hi hj
      rw [shownCell_newRow, if_neg (Nat.not_lt.2 hge)]
      have hcell := hscroll.done (80 * i + j) (by omega) (by rw [colMax, hmax]; omega)
      rw [scrollDown, hcell]
      split_ifs with hlast
      · have hnext : (80 * i + j + colMax : Int) = 80 * ((i + 1 : Nat) : Int) + j := by
          rw [colMax]
          omega
        rw [colMax, hmax] at hlast
        rw [hnext]
        exact h.cells (i + 1) j (by omega) hj
      · rw [colMax, hmax] at hlast
        rw [shownCell_of_le (by rw [List.length_drop]; omega)]
        exact cell_eq 0x20#8 (by decide)
    · rw [scrollDown]
      dsimp only
      rw [hscroll.row]
      omega
    · rw [List.getLastD_concat, scrollDown]
      dsimp only
      rw [hscroll.col]
      rfl

theorem Shows.put (h : Shows t (done ++ [last])) (hlast : last.length < 80) (hc : c.toNat < 0x80) :
    Shows (t.put c) (done ++ [last ++ [c]]) := by
  have hcol := h.col
  have hrow := h.row
  rw [List.getLastD_concat] at hcol
  rw [List.length_append, List.length_singleton] at hrow
  constructor
  · intro i j hi hj
    have hcells := h.cells i j hi hj
    rw [drop_snoc] at hcells ⊢
    rw [shownCell_snoc, ← hcells, List.length_drop]
    rw [Textmode.put_buffer, colMax]
    split_ifs with he
    · have hat : (80 * i + j : Int) = 80 * t.row + t.col := by omega
      rw [hat, Function.update_self, cell_eq c hc]
    · rw [Function.update_of_ne (by omega)]
  · rw [List.length_append, List.length_singleton]
    exact hrow
  · rw [List.getLastD_concat, List.length_append, List.length_singleton, Textmode.put_col, hcol]
    rfl

theorem Shows.idle (h : Shows t rows) (hpos : 0 < rows.length) (hcol : t.col < 80) :
    textmodeWrap t = t := by
  have hrow := h.row
  have hmax : rowMax = 25 := rfl
  rw [textmodeWrap_lt hcol]
  exact scrollDown_lt _ (by omega)

theorem Shows.write_newline (h : Shows t rows) (hpos : 0 < rows.length) :
    Shows (textmodeWrite 0x0A#8 t) (rows ++ [[]]) := by
  have hnew := h.newRow hpos
  exact ⟨hnew.cells, hnew.row, hnew.col⟩

theorem Shows.write_return (h : Shows t rows) (hpos : 0 < rows.length) (hcol : t.col < 80) :
    Shows (textmodeWrite 0x0D#8 t) rows := by
  have hidle : textmodeWrap (textmodeSwitch 0x0D#8 t) = t := h.idle hpos hcol
  rw [textmodeWrite, hidle]
  exact ⟨h.cells, h.row, h.col⟩

theorem Shows.write_char (h : Shows t (done ++ [last])) (hlast : last.length < 80)
    (hc : c.toNat < 0x80) (hline : c ≠ 0x0A#8) (hback : c ≠ 0x08#8) (hreturn : c ≠ 0x0D#8) :
    Shows (textmodeWrite c t)
      (done ++ [last ++ [c]] ++ if last.length + 1 = 80 then [[]] else []) := by
  have hput := h.put hlast hc
  have hpos : 0 < (done ++ [last ++ [c]]).length := by
    rw [List.length_append]
    exact Nat.succ_pos _
  have hcol := hput.col
  rw [List.getLastD_concat, List.length_append, List.length_singleton] at hcol
  rw [textmodeWrite, textmodeSwitch, if_neg hline, if_neg hback, if_neg hreturn]
  split_ifs with hfull
  · have hnew := hput.newRow hpos
    rw [textmodeWrap_full (by rw [colMax]; omega)]
    exact ⟨hnew.cells, hnew.row, hnew.col⟩
  · rw [List.append_nil, hput.idle hpos (by omega)]
    exact ⟨hput.cells, hput.row, hput.col⟩

theorem Shows.print (h : Shows t (done ++ [last])) (hlast : last.length < 80)
    (hcs : ∀ c ∈ cs, c.toNat < 0x80 ∧ c ≠ 0x08#8) :
    Shows (textmodePrint cs t) (done ++ logicalRows last cs) := by
  induction cs generalizing t done last with
  | nil => exact h
  | cons c cs ih =>
    have ⟨hc, hback⟩ := hcs c List.mem_cons_self
    have hrest : ∀ c ∈ cs, c.toNat < 0x80 ∧ c ≠ 0x08#8 := fun c hmem =>
      hcs c (List.mem_cons_of_mem _ hmem)
    have hpos : 0 < (done ++ [last]).length := by
      rw [List.length_append]
      exact Nat.succ_pos _
    rw [textmodePrint, List.foldl_cons, logicalRows]
    split_ifs with hline hreturn hfull
    · subst c
      rw [List.append_cons]
      exact ih (h.write_newline hpos) (by decide) hrest
    · subst c
      have hcol := h.col
      rw [List.getLastD_concat] at hcol
      exact ih (h.write_return hpos (by omega)) hlast hrest
    · have hwrite := h.write_char hlast hc hline hback hreturn
      rw [if_pos hfull] at hwrite
      rw [List.append_cons]
      exact ih hwrite (by decide) hrest
    · have hwrite := h.write_char hlast hc hline hback hreturn
      rw [if_neg hfull, List.append_nil] at hwrite
      have hroom : (last ++ [c]).length < 80 := by
        rw [List.length_append, List.length_singleton]
        omega
      exact ih hwrite hroom hrest

theorem Shows.init (buffer : Int → BitVec 16) (crtc : Crtc) :
    Shows (textmodeInit buffer crtc) [[]] := by
  have hclear := textmodeClear_spec ⟨buffer, 0, 0, crtc, []⟩
  constructor
  · intro i j hi hj
    have hcell := hclear.done (80 * i + j) (by omega) (by rw [colMax, rowMax]; omega)
    rw [textmodeInit, hcell, cell_eq _ (by decide)]
    symm
    rw [← List.nil_append [[]], drop_snoc, shownCell_snoc_nil]
    exact shownCell_of_le (Nat.zero_le i)
  · rw [textmodeInit, hclear.row]
    rfl
  · rw [textmodeInit, hclear.col]
    rfl

theorem logicalRows_pos (row cs : Chars) : 0 < (logicalRows row cs).length := by
  induction cs generalizing row with
  | nil => exact Nat.one_pos
  | cons c cs ih =>
    rw [logicalRows]
    split_ifs with hline hreturn hfull
    · exact Nat.succ_pos _
    · exact ih row
    · exact Nat.succ_pos _
    · exact ih _

theorem logicalRows_last (hrow : row.length < 80) (cs first : Chars) :
    ((logicalRows row cs).getLastD first).length < 80 := by
  induction cs generalizing row first with
  | nil => exact hrow
  | cons c cs ih =>
    rw [logicalRows]
    split_ifs with hline hreturn hfull
    · rw [List.getLastD_cons]
      exact ih (by decide) row
    · exact ih hrow first
    · rw [List.getLastD_cons]
      exact ih (by decide) _
    · have hroom : (row ++ [c]).length < 80 := by
        rw [List.length_append, List.length_singleton]
        omega
      exact ih hroom first

theorem textmodePrint_cursor (hcs : cs ≠ []) (t : Textmode) :
    (textmodePrint cs t).crtc.cursor =
      BitVec.ofInt 16 (80 * (textmodePrint cs t).row + (textmodePrint cs t).col) := by
  rw [textmodePrint, ← List.dropLast_concat_getLast hcs, List.foldl_append]
  exact textmodeCursor_cursor

/-- The controller shows the cursor where `col` and `row` say. -/
def Textmode.Pointed (t : Textmode) : Prop := (t.crtc.cursor.toNat : Int) = 80 * t.row + t.col

/-- The console shows the tail of what was printed on it. -/
theorem textmodePrint_tail (hcs : ∀ c ∈ cs, c.toNat < 0x80 ∧ c ≠ 0x08#8) :
    Shows (textmodePrint cs (textmodeInit buffer crtc)) (logicalRows [] cs) ∧
      (cs ≠ [] → (textmodePrint cs (textmodeInit buffer crtc)).Pointed) := by
  have hshows : Shows (textmodePrint cs (textmodeInit buffer crtc)) (logicalRows [] cs) := by
    rw [← List.nil_append (logicalRows [] cs)]
    exact (Shows.init buffer crtc).print (by decide) hcs
  refine ⟨hshows, fun hne => ?_⟩
  rw [Textmode.Pointed, textmodePrint_cursor hne, BitVec.toNat_ofInt]
  generalize textmodePrint cs (textmodeInit buffer crtc) = t at hshows
  have hrow := hshows.row
  have hcol := hshows.col
  have hpos := logicalRows_pos [] cs
  have hlast := logicalRows_last (by decide : ([] : Chars).length < 80) cs []
  have hnonneg : 0 ≤ 80 * t.row + t.col := by omega
  have hlt : 80 * t.row + t.col < (2 ^ 16 : Nat) := by omega
  rw [Int.emod_eq_of_lt hnonneg hlt, Int.toNat_of_nonneg hnonneg]

/-- A text that is too long for a row, and then newlines that scroll it off the screen. -/
def longText : Chars := List.replicate 85 0x61#8 ++ List.replicate 26 0x0A#8

theorem textmodePrint_tail_longText :
    let t := textmodePrint longText (textmodeInit (fun _ => 0#16) ⟨0#8, fun _ => 0#8⟩)
    (logicalRows [] longText).take 2 = [List.replicate 80 0x61#8, List.replicate 5 0x61#8] ∧
      (logicalRows [] longText).length = 28 ∧ Shows t (logicalRows [] longText) ∧ t.Pointed := by
  have hplain : ∀ c ∈ longText, c.toNat < 0x80 ∧ c ≠ 0x08#8 := by decide
  obtain ⟨hshows, hpointed⟩ :=
    @textmodePrint_tail longText (fun _ => 0#16) ⟨0#8, fun _ => 0#8⟩ hplain
  exact ⟨by decide, by decide, hshows, hpointed (by decide)⟩

end Tupai
