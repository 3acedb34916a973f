import Tupai.Cursor
import Tupai.Screen

namespace Tupai
set_option autoImplicit true

def cellColor (v : BitVec 16) : Byte := (v >>> 8).setWidth 8

def cellChar (v : BitVec 16) : Byte := v.setWidth 8

/-- A character for which `textmode_write` has no case of its own. -/
def Printable (c : Byte) : Prop := c ≠ 0x0A#8 ∧ c ≠ 0x08#8 ∧ c ≠ 0x0D#8

/-- All cells of the screen have the colours of the console. -/
def Textmode.Uniform (t : Textmode) : Prop :=
  ∀ i : Int, 0 ≤ i → i < 2000 → cellColor (t.buffer i) = color

/-- The consoles that `tty_out_thread` writes to. The latest byte for the serial port is first. -/
structure TtyOut where
  screen : Textmode
  serial : List Byte

/-- One round of `tty_out_thread`, with the byte that it took from the pipe. -/
def ttyOutRound (c : Byte) (s : TtyOut) : TtyOut :=
  let serial := c :: s.serial
  ⟨textmodeWrite c s.screen, if c = 0x0A#8 then 0x0D#8 :: serial else serial⟩

def ttyOutThread (cs : List Byte) (s : TtyOut) : TtyOut :=
  cs.foldl (fun s c => ttyOutRound c s) s

/-- While `c` is written, the screen keeps its colours. If `c` is printable, then the cell under the
cursor gets it. -/
structure Wrote (c : Byte) (t : Textmode) : Prop where
  before : t.Uniform
  stored : (textmodeSwitch c t).Uniform
  after : (textmodeWrite c t).Uniform
  shown : Printable c → cellChar ((textmodeSwitch c t).buffer (colMax * t.row + t.col)) = c

/-- Whatever was written up to some point, the next byte is written as it should be. -/
def Colours (s : TtyOut) (cs : List Byte) : Prop :=
  ∀ before c after, cs = before ++ c :: after → Wrote c (ttyOutThread before s).screen

variable {t t' : Textmode}

theorem ttyOutThread_screen (cs : List Byte) (s : TtyOut) :
    (ttyOutThread cs s).screen = textmodePrint cs s.screen := by
  induction cs generalizing s with
  | nil => rfl
  | cons c cs ih => exact ih (ttyOutRound c s)

theorem textmodeSwitch_printable (hc : Printable c) (t : Textmode) :
    textmodeSwitch c t = t.put c := by
  rw [textmodeSwitch, if_neg hc.1, if_neg hc.2.1, if_neg hc.2.2]

theorem cellColor_cell : ∀ c : Byte, cellColor (cell c) = color ↔ c.toNat < 0x80 := by decide

theorem cellChar_cell : ∀ c : Byte, cellChar (cell c) = c := by decide

theorem printable_of_signed (hc : ¬ c.toNat < 0x80) : Printable c := by
  refine ⟨?_, ?_, ?_⟩
  all_goals
    rintro rfl
    exact hc (by decide)

theorem Textmode.Uniform.of_buffer (h : t.Uniform) (he : t'.buffer = t.buffer) : t'.Uniform := by
  rw [Textmode.Uniform, he]
  exact h

/-- Only a character that is stored can change the colours. -/
theorem Textmode.Uniform.switch (h : t.Uniform) (hc : c.toNat < 0x80) :
    (textmodeSwitch c t).Uniform := by
  rw [textmodeSwitch]
  split_ifs with hline hback hcol hrow hreturn
  · exact h
  · exact h
  · exact h
  · exact h
  · exact h
  · intro i hlo hhi
    rw [Textmode.put_buffer]
    by_cases he : i = colMax * t.row + t.col
    · rw [he, Function.update_self]
      exact (cellColor_cell c).2 hc
    · rw [Function.update_of_ne he]
      exact h i hlo hhi

theorem Textmode.Uniform.scroll (h : t.Uniform) : (textmodeScroll 1 t).Uniform := by
  intro i hlo hhi
  have hcell := (textmodeScroll_spec t).done i hlo (by rw [colMax, rowMax]; omega)
  rw [hcell]
  split_ifs with hlast
  · rw [colMax, rowMax] at hlast
    exact h (i + colMax) (by rw [colMax]; omega) (by rw [colMax]; omega)
  · exact (cellColor_cell 0x20#8).2 (by decide)

theorem Textmode.Uniform.down (h : t.Uniform) (fuel : Nat) : (scrollDown fuel t).Uniform := by
  induction fuel generalizing t with
  | zero => exact h
  | succ fuel ih =>
    rw [scrollDown]
    split_ifs with hrow
    · exact ih (h.scroll.of_buffer rfl)
    · exact h

theorem Textmode.Uniform.write (h : t.Uniform) (hc : c.toNat < 0x80) :
    (textmodeWrite c t).Uniform := by
  have hswitch := h.switch hc
  rw [textmodeWrite, textmodeWrap]
  refine Textmode.Uniform.of_buffer ?_ textmodeCursor_buffer
  apply Textmode.Uniform.down
  split_ifs with hfull
  · exact hswitch.of_buffer rfl
  · exact hswitch

theorem Textmode.Uniform.print (h : t.Uniform) (hcs : ∀ c ∈ cs, c.toNat < 0x80) :
    (textmodePrint cs t).Uniform := by
  induction cs generalizing t with
  | nil => exact h
  | cons c cs ih =>
    obtain ⟨hc, hrest⟩ := List.forall_mem_cons.1 hcs
    exact ih (h.write hc) hrest

theorem Textmode.Uniform.init (buffer : Int → BitVec 16) (crtc : Crtc) :
    (textmodeInit buffer crtc).Uniform := by
  intro i hlo hhi
  have hclear := textmodeClear_spec ⟨buffer, 0, 0, crtc, []⟩
  have hcell := hclear.done i hlo (by rw [colMax, rowMax]; omega)
  rw [textmodeInit, hcell]
  exact (cellColor_cell 0x20#8).2 (by decide)

theorem switch_shown (hc : Printable c) (t : Textmode) :
    (textmodeSwitch c t).buffer (colMax * t.row + t.col) = cell c := by
  rw [textmodeSwitch_printable hc, Textmode.put_buffer, Function.update_self]

theorem Textmode.Uniform.wrote (h : t.Uniform) (hc : c.toNat < 0x80) : Wrote c t where
  before := h
  stored := h.switch hc
  after := h.write hc
  shown hp := by rw [switch_shown hp, cellChar_cell]

/-- A negative `char` sets all bits of the attribute of the cell that it is stored in. -/
theorem OnScreen.not_uniform (h : OnScreen t) (hc : ¬ c.toNat < 0x80) :
    ¬ (textmodeSwitch c t).Uniform := by
  intro hu
  have hcol := h.col
  have hrow := h.row
  have hcell := hu (colMax * t.row + t.col) (by rw [colMax]; omega) (by rw [colMax]; omega)
  rw [switch_shown (printable_of_signed hc)] at hcell
  exact hc ((cellColor_cell c).1 hcell)

/-- The colours are right as long as no byte is negative as a `char`. -/
theorem colours_iff (buffer : Int → BitVec 16) (crtc : Crtc) (serial cs : List Byte) :
    Colours ⟨textmodeInit buffer crtc, serial⟩ cs ↔ ∀ c ∈ cs, c.toNat < 0x80 := by
  constructor
  · intro h c hmem
    obtain ⟨before, after, rfl⟩ := List.append_of_mem hmem
    by_contra hc
    have hwrote := h before c after rfl
    rw [ttyOutThread_screen] at hwrote
    exact (textmodePrint_onScreen buffer crtc before).not_uniform hc hwrote.stored
  · rintro hcs before c after rfl
    rw [ttyOutThread_screen]
    have hinit := Textmode.Uniform.init buffer crtc
    refine (hinit.print fun b hb => ?_).wrote ?_
    · exact hcs b (List.mem_append_left _ hb)
    · exact hcs c (List.mem_append_right _ List.mem_cons_self)

theorem not_colours_accent : ¬ ∀ buffer crtc serial cs,
    Colours ⟨textmodeInit buffer crtc, serial⟩ cs := by
  intro h
  have hwrote := h (fun _ => 0#16) ⟨0#8, fun _ => 0#8⟩ [] [0x80#8] [] 0x80#8 [] rfl
  exact (OnScreen.init _ _).not_uniform (by decide) hwrote.stored

end Tupai
