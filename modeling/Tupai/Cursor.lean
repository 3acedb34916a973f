import Tupai.Textmode

namespace Tupai
open Lib
set_option autoImplicit true

/-- The cursor is on the screen, and no cell outside of it was read or written. -/
structure OnScreen (t : Textmode) : Prop where
  col : 0 ≤ t.col ∧ t.col < 80
  row : 0 ≤ t.row ∧ t.row < 25
  touched : ∀ i ∈ t.touched, 0 ≤ i ∧ i ≤ 1999

def Textmode.Inside (t : Textmode) : Prop := ∀ i ∈ t.touched, 0 ≤ i ∧ i ≤ 1999

/-- The cursor may be past the last column or row, but no cell outside of the screen was read or
written. -/
structure Overrun (t : Textmode) : Prop where
  col : 0 ≤ t.col ∧ t.col ≤ 80
  row : 0 ≤ t.row
  inside : t.Inside

variable {t : Textmode}

theorem Textmode.Inside.store (h : t.Inside) (hlo : 0 ≤ i) (hhi : i ≤ 1999) (v : BitVec 16) :
    (t.store i v).Inside := List.forall_mem_cons.2 ⟨⟨hlo, hhi⟩, h⟩

theorem Textmode.Inside.copy (h : t.Inside) (hi : 0 ≤ i) (hij : i ≤ j) (hj : j ≤ 1999) :
    (t.copy i j).Inside := by
  refine List.forall_mem_cons.2 ⟨⟨hi, Int.le_trans hij hj⟩, ?_⟩
  exact List.forall_mem_cons.2 ⟨⟨Int.le_trans hi hij, hj⟩, h⟩

theorem forRange_inside {body : Int → Textmode → Textmode} (hle : lo ≤ hi) (h : t.Inside)
    (hstep : ∀ i t, lo ≤ i → i < hi → t.Inside → (body i t).Inside) :
    (forRange lo hi body t).Inside :=
  forRange_invariant (I := fun _ (t : Textmode) => t.Inside) hle h hstep

theorem Textmode.Inside.fill {row : Int} (h : t.Inside) (hlo : 0 ≤ row) (hhi : row < rowMax)
    (v : BitVec 16) :
    (forRange 0 colMax (fun col t => t.store (colMax * row + col) v) t).Inside := by
  refine forRange_inside (by decide) h fun col t hcol hlt ht => ?_
  rw [colMax] at *
  rw [rowMax] at hhi
  exact ht.store (by omega) (by omega) v

theorem textmodeClear_inside (h : t.Inside) : (textmodeClear t).Inside :=
  forRange_inside (by decide) h fun _ _ hlo hhi ht => ht.fill hlo hhi _

theorem textmodeScroll_inside (h : t.Inside) : (textmodeScroll 1 t).Inside := by
  have hlast : (0 : Int) ≤ rowMax - 1 ∧ rowMax - 1 < rowMax := by decide
  rw [textmodeScroll, if_neg (by decide)]
  refine Textmode.Inside.fill ?_ hlast.1 hlast.2 _
  refine forRange_inside (by decide) h fun row t hrow hlt ht => ?_
  refine forRange_inside (by decide) ht fun col t hcol hle ht => ?_
  rw [colMax] at *
  rw [rowMax] at hlt
  exact ht.copy (by omega) (by omega) (by omega)

/-- No character takes the cursor further than one past the last column or row. -/
theorem OnScreen.switch (h : OnScreen t) (c : Byte) : Overrun (textmodeSwitch c t) := by
  obtain ⟨hcol, hrow, ht⟩ := h
  rw [textmodeSwitch]
  split_ifs with hline hback hc hr hreturn
  · exact ⟨by rw [Textmode.newline_col]; omega, by rw [Textmode.newline_row]; omega, ht⟩
  · exact ⟨by dsimp only; omega, hrow.1, ht⟩
  · exact ⟨⟨by dsimp only; decide, by dsimp only; decide⟩, by dsimp only; omega, ht⟩
  · exact ⟨by omega, hrow.1, ht⟩
  · exact ⟨by omega, hrow.1, ht⟩
  · refine ⟨by rw [Textmode.put_col]; omega, hrow.1, ?_⟩
    have hlo : 0 ≤ colMax * t.row + t.col := by
      rw [colMax]
      omega
    have hhi : colMax * t.row + t.col ≤ 1999 := by
      rw [colMax]
      omega
    exact Textmode.Inside.store ht hlo hhi (cell c)

/-- Each round of scrolling takes the cursor one row up, so the loop ends in the last row. -/
theorem scrollDown_onScreen {fuel : Nat} (hcol : 0 ≤ t.col ∧ t.col < 80) (hrow : 0 ≤ t.row)
    (ht : t.Inside) (hfuel : t.row - rowMax + 1 ≤ fuel) : OnScreen (scrollDown fuel t) := by
  have hmax : rowMax = 25 := rfl
  induction fuel generalizing t with
  | zero =>
    have hlt : t.row < 25 := by omega
    exact ⟨hcol, ⟨hrow, hlt⟩, ht⟩
  | succ fuel ih =>
    rw [scrollDown]
    split_ifs with hge
    · have hscroll := textmodeScroll_spec t
      have hin := textmodeScroll_inside ht
      apply ih
      · dsimp only
        rwa [hscroll.col]
      · dsimp only
        rw [hscroll.row]
        omega
      · exact fun i hi => hin i hi
      · dsimp only
        rw [hscroll.row]
        omega
    · exact ⟨hcol, ⟨hrow, Int.not_le.1 hge⟩, ht⟩

theorem Overrun.wrap (h : Overrun t) : OnScreen (textmodeWrap t) := by
  have hmax : colMax = 80 := rfl
  obtain ⟨hcol, hrow, ht⟩ := h
  rw [textmodeWrap]
  split_ifs with hfull
  · refine scrollDown_onScreen ?_ ?_ ht (Int.self_le_toNat _)
    · rw [Textmode.newline_col]
      omega
    · rw [Textmode.newline_row]
      omega
  · exact scrollDown_onScreen ⟨hcol.1, by omega⟩ hrow ht (Int.self_le_toNat _)

theorem OnScreen.write (h : OnScreen t) (c : Byte) : OnScreen (textmodeWrite c t) := by
  have hwrap := (h.switch c).wrap
  exact ⟨hwrap.col, hwrap.row, hwrap.touched⟩

theorem OnScreen.init (buffer : Int → BitVec 16) (crtc : Crtc) :
    OnScreen (textmodeInit buffer crtc) := by
  have hclear := textmodeClear_spec ⟨buffer, 0, 0, crtc, []⟩
  have hcols : (0 : Int) ≤ 0 ∧ (0 : Int) < 80 := by decide
  have hrows : (0 : Int) ≤ 0 ∧ (0 : Int) < 25 := by decide
  constructor
  · rw [textmodeInit, hclear.col]
    exact hcols
  · rw [textmodeInit, hclear.row]
    exact hrows
  · exact textmodeClear_inside (List.forall_mem_nil _)

/-- The console keeps to the screen, whatever is written to it. -/
theorem textmodePrint_onScreen (buffer : Int → BitVec 16) (crtc : Crtc) (cs : List Byte) :
    OnScreen (textmodePrint cs (textmodeInit buffer crtc)) := by
  generalize ht : textmodeInit buffer crtc = t
  have h : OnScreen t := ht ▸ .init buffer crtc
  clear ht
  induction cs generalizing t with
  | nil => exact h
  | cons c cs ih => exact ih _ (h.write c)

end Tupai
