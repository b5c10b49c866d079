import JordyOS.Gui.Console

/-!
# Clipping

The two drawing calls take places beside the screen.  A rectangle is cut to the part on the screen, at the start of an
axis and then at its end, with sums that all are an `int`; a text leaves out the glyphs that are not on the screen as a
whole.  The title and the two bars of the terminal have room for their texts.
-/

namespace JordyOS.Gui

open Machine

variable {x y w h color limit size n : ℤ} {pixels : Pixels} {font : ℕ → UInt8} {label : List UInt8} {t : Terminal}

theorem int_eq (hlow : -2 ^ 31 ≤ n) (hhigh : n < 2 ^ 31) : int n = .ok n := if_pos ⟨hlow, hhigh⟩

/-! ## Rectangles -/

/-- What starts in front of the screen is made shorter and starts with it. -/
theorem clipStart_eq (hn : -2 ^ 30 ≤ n) (hsize : 0 < size) (hsum : size < 2 ^ 30) :
    clipStart n size = .ok (max n 0, n + size - max n 0) := by
  unfold clipStart
  by_cases hneg : n < 0
  · rw [if_pos hneg, int_eq (by omega) (by omega), max_eq_right hneg.le, ok_bind, Int.add_comm size n, Int.sub_zero]
  · rw [if_neg hneg, max_eq_left (Int.not_lt.mp hneg), add_sub_cancel_left]

/-- What goes on behind the screen is made shorter and ends with it. -/
theorem clipEnd_eq (hn : 0 ≤ n) (hlimit : limit < 2 ^ 30) (hle : n ≤ limit) (hlow : -2 ^ 30 ≤ n + size)
    (hend : n + size < 2 ^ 30) : clipEnd n size limit = .ok (min (n + size) limit - n) := by
  unfold clipEnd
  rw [int_eq (by omega) (by omega), ok_bind]
  by_cases hcut : n + size > limit
  · rw [if_pos hcut, int_eq (by omega) (by omega), min_eq_right hcut.le]
  · rw [if_neg hcut, min_eq_left (Int.not_lt.mp hcut), add_sub_cancel_left]

/-- The points of a rectangle that are on the screen. -/
def Visible (x y w h : ℤ) (p : Point) : Prop :=
  screen.Inside p ∧ (x ≤ p.1 ∧ p.1 < x + w) ∧ y ≤ p.2 ∧ p.2 < y + h

instance (x y w h : ℤ) (p : Point) : Decidable (Visible x y w h p) := inferInstanceAs (Decidable (_ ∧ _))

/-- `gui_paint` fills the part of the rectangle that is on the screen. -/
theorem guiPaint_eq (hx : -320 ≤ x) (hy : -200 ≤ y) (hw : w ≤ 640) (hh : h ≤ 400) (color : ℤ) (pixels : Pixels) :
    guiPaint x y w h color pixels =
      .ok fun p ↦ if Visible x y w h p then UInt8.ofInt color else pixels p := by
  have hvisible : ∀ p, Visible x y w h p ↔
      ((0 ≤ p.1 ∧ p.1 < 320) ∧ 0 ≤ p.2 ∧ p.2 < 200) ∧ (x ≤ p.1 ∧ p.1 < x + w) ∧ y ≤ p.2 ∧ p.2 < y + h :=
    fun _ ↦ Iff.rfl
  unfold guiPaint
  by_cases hempty : w ≤ 0 ∨ h ≤ 0 ∨ x ≥ 320 ∨ y ≥ 200
  · rw [if_pos hempty]
    congr 1
    funext p
    rw [if_neg]
    rw [hvisible]
    omega
  rw [if_neg hempty, clipStart_eq (by omega) (by omega) (by omega), ok_bind]
  dsimp only
  rw [clipStart_eq (by omega) (by omega) (by omega), ok_bind]
  dsimp only
  rw [clipEnd_eq (by omega) (by omega) (by omega) (by omega) (by omega), ok_bind,
    clipEnd_eq (by omega) (by omega) (by omega) (by omega) (by omega), ok_bind]
  have hright : max x 0 + (x + w - max x 0) = x + w := by omega
  have hbottom : max y 0 + (y + h - max y 0) = y + h := by omega
  rw [hright, hbottom]
  by_cases hsome : min (x + w) 320 - max x 0 > 0 ∧ min (y + h) 200 - max y 0 > 0
  · rw [if_pos hsome, rect_eq (by omega) (by omega) (by omega) (by omega)]
    congr 1
    funext p
    have hiff : p ∈ block (max x 0) (max y 0) (min (x + w) 320 - max x 0) (min (y + h) 200 - max y 0) ↔
        Visible x y w h p := by
      rw [mem_block, hvisible]
      omega
    by_cases hp : Visible x y w h p
    · rw [if_pos (hiff.mpr hp), if_pos hp]
    · rw [if_neg fun hmem ↦ hp (hiff.mp hmem), if_neg hp]
  · rw [if_neg hsome]
    congr 1
    funext p
    rw [if_neg]
    rw [hvisible]
    omega

/-! ## Texts -/

theorem rect_ok (hx : 0 ≤ x) (hw : x + w ≤ 320) (hy : 0 ≤ y) (hh : y + h ≤ 200) (c : UInt8) (pixels : Pixels) :
    ∃ pixels', rect x y w h c pixels = .ok pixels' := ⟨_, rect_eq hx hw hy hh c pixels⟩

theorem glyph_ok (hx : 0 ≤ x) (hw : x + 8 ≤ 320) (hy : 0 ≤ y) (hh : y + 8 ≤ 200) (c fg bg : UInt8)
    (pixels : Pixels) : ∃ pixels', glyph font x y c fg bg pixels = .ok pixels' :=
  ⟨_, Screen.fill_eq (fun _ hp ↦ inside_of_mem_block hx hw hy hh hp) pixels⟩

/-- A text that fits between its place and the right edge is drawn on the screen. -/
theorem text_ok (font : ℕ → UInt8) (label : List UInt8) (hx : 0 ≤ x) (hy : 0 ≤ y) (hh : y + 8 ≤ 200)
    (hw : x + label.length * 8 ≤ 320) (fg bg : UInt8) (pixels : Pixels) :
    ∃ pixels', text font x y label fg bg pixels = .ok pixels' := by
  induction label generalizing x pixels with
  | nil => exact ⟨pixels, rfl⟩
  | cons c label ih =>
    rw [List.length_cons] at hw
    obtain ⟨pixels', hglyph⟩ := glyph_ok hx (by omega) hy hh c fg bg pixels
    rw [text, hglyph, ok_bind, int_eq (by omega) (by omega), ok_bind]
    exact ih (by omega) (by omega) _

/-- `gui_drawtext` draws the glyphs that are on the screen as a whole. -/
theorem guiDrawtext_ok (font : ℕ → UInt8) (hx : -320 ≤ x) (label : List UInt8) (color : ℤ) (pixels : Pixels) :
    ∃ pixels', guiDrawtext font x y label color pixels = .ok pixels' := by
  unfold guiDrawtext
  by_cases hrange : y < 0 ∨ y > 192
  · exact ⟨pixels, if_pos hrange⟩
  rw [if_neg hrange]
  induction label generalizing x pixels with
  | nil => exact ⟨pixels, rfl⟩
  | cons c label ih =>
    unfold drawChars
    by_cases hend : x ≤ 312
    · rw [if_pos hend]
      by_cases hstart : x ≥ 0
      · rw [if_pos hstart, Screen.fill_eq, ok_bind, int_eq (by omega) (by omega)]
        · exact ih (by omega) _
        · intro p hp
          have hmem := (List.mem_filter.mp hp).1
          exact inside_of_mem_block hstart (by omega) (by omega) (by omega) hmem
      · rw [if_neg hstart, ok_bind, int_eq (by omega) (by omega)]
        exact ih (by omega) _
    · exact ⟨pixels, if_neg hend⟩

/-- What the calls keep: a cursor in one of the cells, and a title that fits its array. -/
structure Terminal.Fits (t : Terminal) : Prop where
  row : 0 ≤ t.row ∧ t.row < 20
  column : 0 ≤ t.column ∧ t.column < 38
  title : t.title.length ≤ 37

/-- Drawing the empty terminal puts the cursor into the first cell. -/
theorem guiClear_ok (font : ℕ → UInt8) (htitle : t.title.length ≤ 37) :
    ∃ t', guiClear font t = .ok t' ∧ t'.row = 0 ∧ t'.column = 0 ∧ t'.title = t.title := by
  have hfooter : (bytesOf "JordyOS  /  Apelang runtime").length = 27 := rfl
  unfold guiClear
  obtain ⟨pixels, h⟩ := rect_ok (x := 0) (w := 320) (y := 0) (h := 200) (by decide) (by decide) (by decide)
    (by decide) ink t.pixels
  rw [h, ok_bind]
  obtain ⟨pixels, h⟩ := rect_ok (x := 0) (w := 320) (y := 0) (h := 19) (by decide) (by decide) (by decide)
    (by decide) panel pixels
  rw [h, ok_bind]
  obtain ⟨pixels, h⟩ := rect_ok (x := 0) (w := 320) (y := 19) (h := 1) (by decide) (by decide) (by decide)
    (by decide) teal pixels
  rw [h, ok_bind]
  obtain ⟨pixels, h⟩ := text_ok (x := 8) (y := 6) font t.title (by decide) (by decide)
    (by decide) (by omega) white panel pixels
  rw [h, ok_bind]
  obtain ⟨pixels, h⟩ := rect_ok (x := 0) (w := 320) (y := 191) (h := 9) (by decide) (by decide) (by decide)
    (by decide) panel pixels
  rw [h, ok_bind]
  obtain ⟨pixels, h⟩ := text_ok (x := 8) (y := 192) font (bytesOf "JordyOS  /  Apelang runtime") (by decide)
    (by decide) (by decide) (by omega) muted panel pixels
  rw [h, ok_bind]
  exact ⟨_, rfl, rfl, rfl, rfl⟩

theorem guiClear_fits (font : ℕ → UInt8) (htitle : t.title.length ≤ 37) :
    ∃ t', guiClear font t = .ok t' ∧ t'.Fits := by
  obtain ⟨t', hclear, hrow, hcolumn, htitle'⟩ := guiClear_ok font htitle
  refine ⟨t', hclear, ⟨?_, ?_⟩, ⟨?_, ?_⟩, htitle' ▸ htitle⟩ <;> omega

/-- Any title is cut to its array. -/
theorem guiTerminal_fits (font : ℕ → UInt8) (title : List UInt8) (t : Terminal) :
    ∃ t', guiTerminal font title t = .ok t' ∧ t'.Fits := by
  have htitle : (title.take 37).length ≤ 37 := List.length_take_le 37 title
  exact guiClear_fits font htitle

/-- The characters of a text keep the cursor in the cells. -/
theorem puts_fits (font : ℕ → UInt8) (ht : t.Fits) (s : List UInt8) : ∃ t', puts font s t = .ok t' ∧ t'.Fits := by
  obtain ⟨⟨hrow, hrow_lt⟩, ⟨hcolumn, hcolumn_lt⟩, htitle⟩ := ht
  let board : Board := {
    cells := fun r c i j ↦ t.pixels (cellPoint r c i j)
    row := t.row.toNat
    column := t.column.toNat
    row_lt := by omega
    column_lt := by omega }
  have hsees : Sees t board := by
    refine ⟨fun r _ c _ i _ j _ ↦ rfl, ?_, ?_⟩
    · exact (Int.toNat_of_nonneg hrow).symm
    · exact (Int.toNat_of_nonneg hcolumn).symm
  obtain ⟨t', hputs, hsees', htitle'⟩ := puts_sees font hsees s
  have hr := (board.puts font s).row_lt
  have hc := (board.puts font s).column_lt
  refine ⟨t', hputs, ⟨?_, ?_⟩, ⟨?_, ?_⟩, htitle' ▸ htitle⟩
  · rw [hsees'.row]; omega
  · rw [hsees'.row]; omega
  · rw [hsees'.column]; omega
  · rw [hsees'.column]; omega

end JordyOS.Gui
