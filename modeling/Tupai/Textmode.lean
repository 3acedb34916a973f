import Mathlib.Logic.Function.Basic
import Tupai.Basic
import Tupai.Lib.Loop

namespace Tupai
open Lib
set_option autoImplicit true

def colMax : Int := 80

def rowMax : Int := 25

def color : Byte := 0x0F#8

/-- The display controller. The port 0x3D4 selects the register that 0x3D5 writes. -/
structure Crtc where
  index : Byte
  regs : Byte → Byte

def Crtc.outb (crtc : Crtc) (port : Nat) (val : Byte) : Crtc :=
  if port = 0x3D4 then { crtc with index := val }
  else if port = 0x3D5 then { crtc with regs := Function.update crtc.regs crtc.index val }
  else crtc

/-- Where the controller shows the cursor. -/
def Crtc.cursor (crtc : Crtc) : BitVec 16 := crtc.regs 0x0E#8 ++ crtc.regs 0x0F#8

structure Textmode where
  buffer : Int → BitVec 16
  col : Int
  row : Int
  crtc : Crtc
  /-- The indices of `buffer` that were read or written, the latest first. -/
  touched : List Int

/-- `(color << 8) | c`, where `char` is signed and both are promoted to `int`. -/
def cell (c : Byte) : BitVec 16 :=
  ((color.zeroExtend 32 <<< 8) ||| c.signExtend 32).setWidth 16

def Textmode.store (t : Textmode) (i : Int) (v : BitVec 16) : Textmode :=
  { t with buffer := Function.update t.buffer i v, touched := i :: t.touched }

@[simp] theorem Textmode.store_buffer (t : Textmode) (i : Int) (v : BitVec 16) :
    (t.store i v).buffer = Function.update t.buffer i v := rfl

def Textmode.copy (t : Textmode) (i j : Int) : Textmode :=
  { t with buffer := Function.update t.buffer i (t.buffer j), touched := i :: j :: t.touched }

def textmodeClear (t : Textmode) : Textmode :=
  forRange 0 rowMax (fun row t =>
    forRange 0 colMax (fun col t => t.store (colMax * row + col) (cell 0x20#8)) t) t

def textmodeScroll (n : Int) (t : Textmode) : Textmode :=
  if n ≤ 0 then t
  else
    let t := forRange n rowMax (fun row t =>
      forRange 0 colMax (fun col t => t.copy (colMax * (row - n) + col) (colMax * row + col)) t) t
    forRange 0 colMax (fun col t => t.store (colMax * (rowMax - 1) + col) (cell 0x20#8)) t

def textmodeCursor (col row : Int) (t : Textmode) : Textmode :=
  let pos := BitVec.ofInt 16 (colMax * row + col)
  { t with crtc := (((t.crtc.outb 0x3D4 0x0F#8).outb 0x3D5 ((pos &&& 0xFF#16).setWidth 8)).outb
      0x3D4 0x0E#8).outb 0x3D5 (((pos >>> 8) &&& 0xFF#16).setWidth 8) }

/-- The screen after `textmode_init`, whatever was in memory and in the controller. -/
def textmodeInit (buffer : Int → BitVec 16) (crtc : Crtc) : Textmode :=
  textmodeClear ⟨buffer, 0, 0, crtc, []⟩

/-- `col = 0; row ++;` -/
def Textmode.newline (t : Textmode) : Textmode := { t with col := 0, row := t.row + 1 }

def Textmode.put (t : Textmode) (c : Byte) : Textmode :=
  let t := t.store (colMax * t.row + t.col) (cell c)
  { t with col := t.col + 1 }

@[simp] theorem Textmode.newline_col (t : Textmode) : t.newline.col = 0 := rfl

@[simp] theorem Textmode.newline_row (t : Textmode) : t.newline.row = t.row + 1 := rfl

@[simp] theorem Textmode.put_buffer (t : Textmode) (c : Byte) :
    (t.put c).buffer = Function.update t.buffer (colMax * t.row + t.col) (cell c) := rfl

@[simp] theorem Textmode.put_col (t : Textmode) (c : Byte) : (t.put c).col = t.col + 1 := rfl

@[simp] theorem Textmode.put_row (t : Textmode) (c : Byte) : (t.put c).row = t.row := rfl

/-- The `switch` of `textmode_write`. -/
def textmodeSwitch (c : Byte) (t : Textmode) : Textmode :=
  if c = 0x0A#8 then t.newline
  else if c = 0x08#8 then
    if t.col ≠ 0 then { t with col := t.col - 1 }
    else if t.row ≠ 0 then { t with row := t.row - 1, col := colMax - 1 }
    else t
  else if c = 0x0D#8 then t
  else t.put c

/-- The loop of `textmode_write` that scrolls. Each round takes `row` one down. -/
def scrollDown : (fuel : Nat) → Textmode → Textmode
  | 0, t => t
  | fuel + 1, t =>
    if t.row ≥ rowMax then
      let t := textmodeScroll 1 t
      scrollDown fuel { t with row := t.row - 1 }
    else t

/-- What `textmode_write` does when it went past the last column or row. -/
def textmodeWrap (t : Textmode) : Textmode :=
  let t := if t.col ≥ colMax then t.newline else t
  scrollDown (t.row - rowMax + 1).toNat t

def textmodeWrite (c : Byte) (t : Textmode) : Textmode :=
  let t := textmodeWrap (textmodeSwitch c t)
  textmodeCursor t.col t.row t

def textmodePrint (cs : List Byte) (t : Textmode) : Textmode :=
  cs.foldl (fun t c => textmodeWrite c t) t

theorem scrollDown_lt (fuel : Nat) (h : t.row < rowMax) : scrollDown fuel t = t := by
  cases fuel with
  | zero => rfl
  | succ fuel => rw [scrollDown, if_neg (Int.not_le.2 h)]

theorem textmodeWrap_lt (h : t.col < colMax) :
    textmodeWrap t = scrollDown (t.row - rowMax + 1).toNat t := by
  rw [textmodeWrap, if_neg (Int.not_le.2 h)]

theorem textmodeWrap_full (h : t.col ≥ colMax) : textmodeWrap t = textmodeWrap t.newline := by
  have hcol : t.newline.col < colMax := by
    rw [Textmode.newline_col]
    decide
  rw [textmodeWrap_lt hcol, textmodeWrap, if_pos h]

@[simp] theorem textmodeCursor_buffer : (textmodeCursor col row t).buffer = t.buffer := rfl

@[simp] theorem textmodeCursor_col : (textmodeCursor col row t).col = t.col := rfl

@[simp] theorem textmodeCursor_row : (textmodeCursor col row t).row = t.row := rfl

theorem textmodeCursor_cursor :
    (textmodeCursor col row t).crtc.cursor = BitVec.ofInt 16 (colMax * row + col) := by
  have hne : (0x0F#8 : Byte) ≠ 0x0E#8 := by decide
  have hports : ¬ (0x3D5 : Nat) = 0x3D4 := by decide
  simp only [textmodeCursor, Crtc.cursor, Crtc.outb, if_neg hports, if_true, Function.update_self,
    Function.update_of_ne hne, setWidth_mask]
  exact append_setWidth _

/-- The cells from `lo` up to `frontier` were set to `f`, and nothing else was changed. -/
structure Swept (t t' : Textmode) (lo frontier : Int) (f : Int → BitVec 16) : Prop where
  done : ∀ x, lo ≤ x → x < frontier → t'.buffer x = f x
  rest : ∀ x, x < lo ∨ frontier ≤ x → t'.buffer x = t.buffer x
  col : t'.col = t.col
  row : t'.row = t.row

theorem Swept.refl (t : Textmode) (lo : Int) (f : Int → BitVec 16) : Swept t t lo lo f where
  done _ hlo hlt := absurd hlo (Int.not_le.2 hlt)
  rest _ _ := rfl
  col := rfl
  row := rfl

theorem Swept.congr (h : Swept t t' lo i f) (hf : ∀ x < i, f x = g x) : Swept t t' lo i g where
  done x hx hlt := (h.done x hx hlt).trans (hf x hlt)
  rest := h.rest
  col := h.col
  row := h.row

theorem Swept.store (h : Swept t t' lo i f) (hlo : lo ≤ i) (hv : v = f i) :
    Swept t (t'.store i v) lo (i + 1) f where
  done x hx hlt := by
    rw [Textmode.store_buffer]
    by_cases he : x = i
    · rw [he, Function.update_self, hv]
    · rw [Function.update_of_ne he, h.done x hx (by omega)]
  rest x hx := by
    rw [Textmode.store_buffer, Function.update_of_ne (by omega), h.rest x (by omega)]
  col := h.col
  row := h.row

/-- A cell that is copied from ahead of the frontier is still as it was. -/
theorem Swept.copy (h : Swept t t' lo i f) (hlo : lo ≤ i) (hj : i ≤ j) (hv : t.buffer j = f i) :
    Swept t (t'.copy i j) lo (i + 1) f := by
  have hread : t'.buffer j = f i := (h.rest j (.inr hj)).trans hv
  have hstore := h.store hlo hread
  exact ⟨hstore.done, hstore.rest, hstore.col, hstore.row⟩

theorem textmodeClear_spec (t : Textmode) :
    Swept t (textmodeClear t) 0 (colMax * rowMax) fun _ => cell 0x20#8 := by
  refine forRange_invariant (I := fun row t' => Swept t t' 0 (colMax * row) _) (by decide)
    (Swept.refl t 0 _) fun row t₁ hrow _ h₁ => ?_
  rw [Int.mul_add]
  refine forRange_invariant (I := fun col t' => Swept t t' 0 (colMax * row + col) _) (by decide)
    (by rwa [Int.add_zero]) fun col t₂ hcol _ h₂ => ?_
  rw [← Int.add_assoc]
  exact h₂.store (by rw [colMax]; omega) rfl

theorem textmodeScroll_copies (hn : 0 < n) (hle : n ≤ rowMax) (t : Textmode) :
    Swept t (forRange n rowMax (fun row t => forRange 0 colMax (fun col t =>
      t.copy (colMax * (row - n) + col) (colMax * row + col)) t) t) 0 (colMax * (rowMax - n))
        fun x => t.buffer (x + colMax * n) := by
  refine forRange_invariant (I := fun row t' => Swept t t' 0 (colMax * (row - n)) _) hle
    (by rw [Int.sub_self]; exact Swept.refl t 0 _) fun row t₁ hrow _ h₁ => ?_
  have hnext : colMax * (row + 1 - n) = colMax * (row - n) + colMax := by
    rw [colMax]
    omega
  rw [hnext]
  refine forRange_invariant (I := fun col t' => Swept t t' 0 (colMax * (row - n) + col) _)
    (by decide) (by rwa [Int.add_zero]) fun col t₂ hcol _ h₂ => ?_
  rw [← Int.add_assoc]
  rw [colMax] at *
  refine h₂.copy (by omega) (by omega) (congrArg t.buffer ?_)
  omega

/-- Scrolling moves all rows up and leaves a blank one at the bottom. -/
theorem textmodeScroll_spec (t : Textmode) :
    Swept t (textmodeScroll 1 t) 0 (colMax * rowMax) fun x =>
      if x < colMax * (rowMax - 1) then t.buffer (x + colMax) else cell 0x20#8 := by
  have hcols : 0 ≤ colMax := by decide
  rw [textmodeScroll, if_neg (by decide)]
  refine forRange_invariant (I := fun col t' => Swept t t' 0 (colMax * (rowMax - 1) + col) _)
    hcols ?_ fun col t₂ hcol _ h₂ => ?_
  · rw [Int.add_zero]
    exact (textmodeScroll_copies Int.one_pos (by decide) t).congr fun x hx => (if_pos hx).symm
  rw [← Int.add_assoc]
  have hlast : ¬ colMax * (rowMax - 1) + col < colMax * (rowMax - 1) := by omega
  exact h₂.store (Int.add_nonneg (by decide) hcol) (if_neg hlast).symm

end Tupai
