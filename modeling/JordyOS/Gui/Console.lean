import JordyOS.Gui.Drawing

/-!
# The terminal as a board of cells

What the terminal is for: 20 rows of 38 cells, a cursor that is always in one of them, and characters that fill the
cell of the cursor and move it on.  `guiPutc` refines this, whatever the font: from a screen that shows a board it
reaches one that shows the board with the character put on it, and touches no point beside the screen.
-/

namespace JordyOS.Gui

open Machine

/-! ## Boards -/

/-- What one cell shows, of eight by eight pixels. -/
abbrev Picture := ℕ → ℕ → UInt8

abbrev Cells := ℕ → ℕ → Picture

def blank : Picture := fun _ _ ↦ ink

/-- The line that marks the cursor. -/
def Picture.marked (picture : Picture) : Picture := fun i j ↦ if i < 7 ∧ j = 6 then mint else picture i j

def letter (font : ℕ → UInt8) (c : UInt8) : Picture := fun i j ↦ if lit font c i j then white else ink

def Cells.paint (cells : Cells) (row column : ℕ) (picture : Picture) : Cells :=
  fun r c ↦ if r = row ∧ c = column then picture else cells r c

/-- Every row shows what the one below it showed, and the last one is empty. -/
def Cells.scrolled (cells : Cells) : Cells := fun r c ↦ if r < 19 then cells (r + 1) c else blank

structure Board where
  cells : Cells
  row : ℕ
  column : ℕ
  row_lt : row < 20
  column_lt : column < 38

namespace Board

/-- The cursor is put into a cell. -/
def cursorAt (cells : Cells) (row column : ℕ) (row_lt : row < 20) (column_lt : column < 38) : Board where
  cells := cells.paint row column (cells row column).marked
  row := row
  column := column
  row_lt := row_lt
  column_lt := column_lt

/-- The cursor goes to the start of the next row. -/
def nextRow (cells : Cells) (row : ℕ) : Board :=
  if h : row + 1 < 20 then cursorAt cells (row + 1) 0 h (by decide)
  else cursorAt cells.scrolled 19 0 (by decide) (by decide)

variable (font : ℕ → UInt8)

def putc (b : Board) (c : UInt8) : Board :=
  let cells := b.cells.paint b.row b.column blank
  if c = 8 then
    cursorAt (cells.paint b.row (b.column - 1) blank) b.row (b.column - 1) b.row_lt
      ((Nat.sub_le _ _).trans_lt b.column_lt)
  else if c = 10 then nextRow cells b.row
  else if c = 13 then cursorAt cells b.row 0 b.row_lt (by decide)
  else
    let cells := cells.paint b.row b.column (letter font c)
    if h : b.column + 1 < 38 then cursorAt cells b.row (b.column + 1) b.row_lt h else nextRow cells b.row

def puts (b : Board) (s : List UInt8) : Board := s.foldl (putc font) b

end Board

/-! ## What the pixels show -/

/-- The place of a pixel of a cell. -/
def cellPoint (r c i j : ℕ) : Point := (8 + c * 8 + i, 24 + r * 8 + j)

def Shows (pixels : Pixels) (cells : Cells) : Prop :=
  ∀ r < 20, ∀ c < 38, ∀ i < 8, ∀ j < 8, pixels (cellPoint r c i j) = cells r c i j

structure Sees (t : Terminal) (b : Board) : Prop where
  pixels : Shows t.pixels b.cells
  row : t.row = b.row
  column : t.column = b.column

variable (font : ℕ → UInt8) {pixels : Pixels} {cells : Cells} {picture : Picture} {color : UInt8}
  {row column r c i j : ℕ} {x y w h : ℤ} {p : Point}

theorem inside_of_mem_block (hx : 0 ≤ x) (hw : x + w ≤ 320) (hy : 0 ≤ y) (hh : y + h ≤ 200)
    (hp : p ∈ block x y w h) : screen.Inside p := by
  have hmem := mem_block.mp hp
  change (0 ≤ p.1 ∧ p.1 < 320) ∧ 0 ≤ p.2 ∧ p.2 < 200
  omega

/-- A rectangle on the screen is filled and nothing else changes. -/
theorem rect_eq (hx : 0 ≤ x) (hw : x + w ≤ 320) (hy : 0 ≤ y) (hh : y + h ≤ 200) (color : UInt8) (pixels : Pixels) :
    rect x y w h color pixels = .ok fun p ↦ if p ∈ block x y w h then color else pixels p :=
  Screen.fill_eq (fun _ hp ↦ inside_of_mem_block hx hw hy hh hp) pixels

/-- A pixel of a cell lies in a cell's square exactly if it is the same cell. -/
theorem cellPoint_mem_iff (hi : i < 8) (hj : j < 8) :
    cellPoint r c i j ∈ block (8 + column * 8) (24 + row * 8) 8 8 ↔ r = row ∧ c = column := by
  rw [mem_block]
  unfold cellPoint
  dsimp only
  omega

/-- A loop over the square of a cell gives it a new picture. -/
theorem Shows.fill (hshows : Shows pixels cells) (hrow : row < 20) (hcolumn : column < 38) {colour : Point → UInt8}
    (hcolour : ∀ i < 8, ∀ j < 8, colour (cellPoint row column i j) = picture i j) :
    ∃ pixels', screen.fill colour (block (8 + column * 8) (24 + row * 8) 8 8) pixels = .ok pixels' ∧
      Shows pixels' (cells.paint row column picture) := by
  refine ⟨_, Screen.fill_eq (fun p hp ↦ inside_of_mem_block ?_ ?_ ?_ ?_ hp) pixels, ?_⟩
  any_goals omega
  intro r hr c hc i hi j hj
  dsimp only [Cells.paint]
  by_cases hcell : r = row ∧ c = column
  · rw [if_pos ((cellPoint_mem_iff hi hj).mpr hcell), if_pos hcell, hcell.1, hcell.2]
    exact hcolour i hi j hj
  · rw [if_neg fun hmem ↦ hcell ((cellPoint_mem_iff hi hj).mp hmem), if_neg hcell]
    exact hshows r hr c hc i hi j hj

theorem Shows.erase (hshows : Shows pixels cells) (hrow : row < 20) (hcolumn : column < 38) :
    ∃ pixels', rect (8 + column * 8) (24 + row * 8) 8 8 ink pixels = .ok pixels' ∧
      Shows pixels' (cells.paint row column blank) :=
  hshows.fill hrow hcolumn fun _ _ _ _ ↦ rfl

theorem Shows.glyph (hshows : Shows pixels cells) (hrow : row < 20) (hcolumn : column < 38) (ch : UInt8) :
    ∃ pixels', glyph font (8 + column * 8) (24 + row * 8) ch white ink pixels = .ok pixels' ∧
      Shows pixels' (cells.paint row column (letter font ch)) := by
  refine hshows.fill hrow hcolumn fun i _ j _ ↦ ?_
  have hi : ((cellPoint row column i j).1 - (8 + column * 8)).toNat = i := by
    unfold cellPoint
    omega
  have hj : ((cellPoint row column i j).2 - (24 + row * 8)).toNat = j := by
    unfold cellPoint
    omega
  rw [hi, hj]
  rfl

/-- The mark lies in the cell of the cursor. -/
theorem Shows.mark (hshows : Shows pixels cells) (hrow : row < 20) (hcolumn : column < 38) :
    ∃ pixels', rect (8 + column * 8) (30 + row * 8) 7 1 mint pixels = .ok pixels' ∧
      Shows pixels' (cells.paint row column (cells row column).marked) := by
  refine ⟨_, rect_eq (by omega) (by omega) (by omega) (by omega) mint pixels, ?_⟩
  intro r hr c hc i hi j hj
  have hmem : cellPoint r c i j ∈ block (8 + column * 8) (30 + row * 8) 7 1 ↔
      (r = row ∧ c = column) ∧ i < 7 ∧ j = 6 := by
    rw [mem_block]
    unfold cellPoint
    dsimp only
    omega
  have hpixel := hshows r hr c hc i hi j hj
  dsimp only [Cells.paint]
  by_cases hcell : r = row ∧ c = column
  · obtain ⟨rfl, rfl⟩ := hcell
    simp only [and_self, if_true]
    unfold Picture.marked
    by_cases hmark : i < 7 ∧ j = 6
    · rw [if_pos (hmem.mpr ⟨⟨rfl, rfl⟩, hmark⟩), if_pos hmark]
    · rw [if_neg fun hp ↦ hmark (hmem.mp hp).2, if_neg hmark]
      exact hpixel
  · rw [if_neg fun hp ↦ hcell (hmem.mp hp).1, if_neg hcell]
    exact hpixel

/-- Moving up reads every row before it is overwritten. -/
theorem Shows.scroll (hshows : Shows pixels cells) :
    ∃ pixels' pixels'', screen.move (fun p ↦ (p.1, p.2 + 8)) (block 8 24 304 152) pixels = .ok pixels' ∧
      rect 8 176 304 8 ink pixels' = .ok pixels'' ∧ Shows pixels'' cells.scrolled := by
  have hsource : ∀ p ∈ block 8 24 304 152, screen.Inside (p.1, p.2 + 8) := by
    intro p hp
    have hmem := mem_block.mp hp
    change (0 ≤ p.1 ∧ p.1 < 320) ∧ 0 ≤ p.2 + 8 ∧ p.2 + 8 < 200
    omega
  have horder : (block 8 24 304 152).Pairwise fun a b ↦ ((b.1, b.2 + 8) : Point) ≠ a := by
    refine (pairwise_block 8 24 304 152).imp ?_
    rintro a b hle rfl
    dsimp only at hle
    omega
  refine ⟨_, _, Screen.move_eq (fun p hp ↦ inside_of_mem_block ?_ ?_ ?_ ?_ hp) hsource horder pixels,
    rect_eq ?_ ?_ ?_ ?_ ink _, ?_⟩
  any_goals decide
  intro r hr c hc i hi j hj
  have hlast : cellPoint r c i j ∈ block 8 176 304 8 ↔ ¬ r < 19 := by
    rw [mem_block]
    unfold cellPoint
    dsimp only
    omega
  have hupper : cellPoint r c i j ∈ block 8 24 304 152 ↔ r < 19 := by
    rw [mem_block]
    unfold cellPoint
    dsimp only
    omega
  have hbelow : ((cellPoint r c i j).1, (cellPoint r c i j).2 + 8) = cellPoint (r + 1) c i j := by
    unfold cellPoint
    ext
    · rfl
    · dsimp only
      omega
  dsimp only [Cells.scrolled]
  by_cases hrow : r < 19
  · rw [if_neg fun hp ↦ hlast.mp hp hrow, if_pos (hupper.mpr hrow), if_pos hrow, hbelow]
    exact hshows (r + 1) (by omega) c hc i hi j hj
  · rw [if_pos (hlast.mpr hrow), if_neg hrow]
    rfl

/-! ## One character -/

variable {t : Terminal} {b : Board} {k : ℕ}

/-- The end of `guiPutc`: the mark is drawn where the cursor is. -/
theorem mark_sees (hshows : Shows t.pixels cells) (hrow : t.row = row) (hcolumn : t.column = column)
    (row_lt : row < 20) (column_lt : column < 38) :
    ∃ pixels, rect (8 + t.column * 8) (30 + t.row * 8) 7 1 mint t.pixels = .ok pixels ∧
      Sees { t with pixels := pixels } (Board.cursorAt cells row column row_lt column_lt) := by
  obtain ⟨pixels, hmark, hshown⟩ := hshows.mark row_lt column_lt
  rw [← hrow, ← hcolumn] at hmark
  exact ⟨pixels, hmark, hshown, hrow, hcolumn⟩

/-- Behind `place`: the rows are moved up when the cursor has left the last one. -/
def finish (t : Terminal) : Scan Terminal := do
  let t ← if t.row ≥ 20 then scroll t else .ok t
  let pixels ← rect (8 + t.column * 8) (30 + t.row * 8) 7 1 mint t.pixels
  .ok { t with pixels := pixels }

theorem guiPutc_eq (t : Terminal) (ch : UInt8) : guiPutc font ch t = (do
    let pixels ← rect (8 + t.column * 8) (24 + t.row * 8) 8 8 ink t.pixels
    let t ← place font ch { t with pixels := pixels }
    finish t) := rfl

theorem finish_sees (hshows : Shows t.pixels cells) (hrow : t.row = row) (hcolumn : t.column = column)
    (row_lt : row < 20) (column_lt : column < 38) :
    ∃ t', finish t = .ok t' ∧ Sees t' (Board.cursorAt cells row column row_lt column_lt) ∧ t'.title = t.title := by
  obtain ⟨pixels, hmark, hsees⟩ := mark_sees hshows hrow hcolumn row_lt column_lt
  unfold finish
  rw [if_neg (by omega), ok_bind]
  dsimp only
  rw [hmark, ok_bind]
  exact ⟨_, rfl, hsees, rfl⟩

theorem finish_nextRow (hshows : Shows t.pixels cells) (hrow : t.row = row + 1) (hcolumn : t.column = 0)
    (row_lt : row < 20) :
    ∃ t', finish t = .ok t' ∧ Sees t' (Board.nextRow cells row) ∧ t'.title = t.title := by
  unfold Board.nextRow
  by_cases hlast : row + 1 < 20
  · rw [dif_pos hlast]
    exact finish_sees hshows hrow hcolumn hlast (by decide)
  · rw [dif_neg hlast]
    obtain ⟨moved, pixels, hmove, hclear, hshown⟩ := hshows.scroll
    let scrolled : Terminal := { t with pixels := pixels, row := 19 }
    have hscroll : scroll t = .ok scrolled := by
      unfold scroll
      rw [hmove, ok_bind, hclear, ok_bind]
    obtain ⟨pixels', hmark, hsees⟩ := mark_sees (t := scrolled) hshown rfl hcolumn (by decide) (by decide)
    unfold finish
    rw [if_pos (by omega), hscroll, ok_bind]
    dsimp only
    rw [hmark, ok_bind]
    exact ⟨_, rfl, hsees, rfl⟩

/-- The terminal puts a character as the board does, and no access of it is beside the screen. -/
theorem guiPutc_sees (hsees : Sees t b) (ch : UInt8) :
    ∃ t', guiPutc font ch t = .ok t' ∧ Sees t' (b.putc font ch) ∧ t'.title = t.title := by
  obtain ⟨erased, herase, hshows⟩ := hsees.pixels.erase b.row_lt b.column_lt
  rw [← hsees.row, ← hsees.column] at herase
  rw [guiPutc_eq, herase, ok_bind]
  unfold place Board.putc
  dsimp only
  by_cases hback : ch = 8
  · have hcolumn : (if t.column > 0 then t.column - 1 else t.column) = ((b.column - 1 : ℕ) : ℤ) := by
      rw [hsees.column]
      split <;> omega
    have hlt : b.column - 1 < 38 := (Nat.sub_le _ _).trans_lt b.column_lt
    obtain ⟨pixels, hblank, hshown⟩ := hshows.erase b.row_lt hlt
    rw [if_pos hback, if_pos hback, hcolumn, hsees.row, hblank]
    exact finish_sees (t := ⟨pixels, _, _, _⟩) hshown rfl rfl b.row_lt hlt
  rw [if_neg hback, if_neg hback]
  by_cases hnewline : ch = 10
  · rw [if_pos hnewline, if_pos hnewline]
    exact finish_nextRow (t := ⟨erased, _, _, _⟩) hshows (congrArg (· + 1) hsees.row) rfl b.row_lt
  rw [if_neg hnewline, if_neg hnewline]
  by_cases hreturn : ch = 13
  · rw [if_pos hreturn, if_pos hreturn]
    exact finish_sees (t := ⟨erased, _, _, _⟩) hshows hsees.row rfl b.row_lt (by decide)
  rw [if_neg hreturn, if_neg hreturn]
  obtain ⟨pixels, hglyph, hshown⟩ := hshows.glyph font b.row_lt b.column_lt ch
  rw [← hsees.row, ← hsees.column] at hglyph
  rw [hglyph, ok_bind]
  by_cases hwrap : b.column + 1 < 38
  · have hstays : ¬ t.column + 1 ≥ 38 := by
      rw [hsees.column]
      omega
    rw [dif_pos hwrap, if_neg hstays]
    exact finish_sees (t := ⟨pixels, _, _, _⟩) hshown hsees.row (congrArg (· + 1) hsees.column) b.row_lt hwrap
  · have hleaves : t.column + 1 ≥ 38 := by
      rw [hsees.column]
      omega
    rw [dif_neg hwrap, if_pos hleaves]
    exact finish_nextRow (t := ⟨pixels, _, _, _⟩) hshown (congrArg (· + 1) hsees.row) rfl b.row_lt

/-- A text is put character by character. -/
theorem puts_sees (hsees : Sees t b) (s : List UInt8) :
    ∃ t', puts font s t = .ok t' ∧ Sees t' (b.puts font s) ∧ t'.title = t.title := by
  induction s generalizing t b with
  | nil => exact ⟨t, rfl, hsees, rfl⟩
  | cons c s ih =>
    obtain ⟨t', hputc, hsees', htitle⟩ := guiPutc_sees font hsees c
    obtain ⟨t'', hputs, hsees'', htitle'⟩ := ih hsees'
    rw [puts, hputc, ok_bind]
    exact ⟨t'', hputs, hsees'', htitle'.trans htitle⟩

end JordyOS.Gui
