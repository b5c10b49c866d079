import JordyOS.Gui.Console

/-!
# Reading a line

`read_line` keeps the line in a buffer and lets the terminal echo it.  The two agree as long as no character is taken
back over the end of a row: `'\b'` stops at the first column, so the erase sequence leaves the last character of the
row above on the screen, and the cursor behind it.
-/

namespace JordyOS.Gui

open Machine

/-! ## The code -/

/-- `read_line` between two keys: the characters in front of `len`, and the terminal. -/
structure Line where
  buffer : List UInt8
  terminal : Terminal

section Code

variable (font : ℕ → UInt8) (max : ℤ)

/-- The round of `read_line` with a key other than the newline; bytes from 128 on are negative characters. -/
def readKey (c : UInt8) (s : Line) : Scan Line :=
  if (c = 8 ∨ c = 127) ∧ s.buffer.length > 0 then do
    let t ← puts font [8, 32, 8] s.terminal
    .ok ⟨s.buffer.dropLast, t⟩
  else if (c ≥ 32 ∧ c < 127) ∧ (s.buffer.length : ℤ) < max - 1 then do
    let t ← guiPutc font c s.terminal
    .ok ⟨s.buffer ++ [c], t⟩
  else .ok s

/-- The loop of `read_line` on the keys it gets, up to the newline. -/
def readLoop : (keys : List UInt8) → Line → Scan Line
  | [], s => .ok s
  | c :: keys, s =>
    if c = 10 then do
      let t ← guiPutc font 10 s.terminal
      .ok { s with terminal := t }
    else do
      let s ← readKey font max c s
      readLoop keys s

def readLine (keys : List UInt8) (t : Terminal) : Scan Line :=
  if max ≤ 0 then .ok ⟨[], t⟩ else readLoop font max keys ⟨[], t⟩

end Code

/-! ## What it is for -/

def IsDelete (c : UInt8) : Prop := c = 8 ∨ c = 127

instance (c : UInt8) : Decidable (IsDelete c) := inferInstanceAs (Decidable (_ ∨ _))

/-- A key and the line it leaves. -/
def editKey (max : ℤ) (buffer : List UInt8) (c : UInt8) : List UInt8 :=
  if IsDelete c then buffer.dropLast
  else if (32 ≤ c ∧ c < 127) ∧ (buffer.length : ℤ) < max - 1 then buffer ++ [c]
  else buffer

def edit (max : ℤ) (keys : List UInt8) : List UInt8 := keys.foldl (editKey max) []

/-- The cell of the screen shows the picture. -/
def CellShows (t : Terminal) (r c : ℕ) (picture : Picture) : Prop :=
  ∀ i < 8, ∀ j < 8, t.pixels (cellPoint r c i j) = picture i j

/-- The text starts in the cell `start`, counted in reading order, and `scrolled` rows have left the screen since. -/
structure EchoAt (font : ℕ → UInt8) (start : ℕ) (buffer : List UInt8) (scrolled : ℕ) (t : Terminal) : Prop where
  row : t.row + scrolled = ((start + buffer.length) / 38 : ℕ)
  column : t.column = ((start + buffer.length) % 38 : ℕ)
  text : ∀ r < 20, ∀ c < 38, ∀ n ch, (r + scrolled) * 38 + c = start + n → buffer[n]? = some ch →
    CellShows t r c (letter font ch)
  cursor : ∀ r < 20, ∀ c < 38, (r + scrolled) * 38 + c = start + buffer.length →
    CellShows t r c blank ∨ CellShows t r c blank.marked
  behind : ∀ r < 20, ∀ c < 38, start + buffer.length < (r + scrolled) * 38 + c → CellShows t r c blank

/-- The screen shows the buffer from the cell `start` on, blank behind it, with the cursor in the first cell behind. -/
def Echo (font : ℕ → UInt8) (start : ℕ) (buffer : List UInt8) (t : Terminal) : Prop :=
  ∃ scrolled, EchoAt font start buffer scrolled t

/-- The cursor is in a cell of the screen, and it and the cells behind it are blank. -/
structure Ready (t : Terminal) (row column : ℕ) : Prop where
  row_lt : row < 20
  column_lt : column < 38
  row_eq : t.row = row
  column_eq : t.column = column
  cursor : CellShows t row column blank ∨ CellShows t row column blank.marked
  behind : ∀ r < 20, ∀ c < 38, row * 38 + column < r * 38 + c → CellShows t r c blank

/-- No key takes a character back while the cursor is in the first column. -/
def DeletesInRow (max : ℤ) (start : ℕ) (keys : List UInt8) : Prop :=
  ∀ before c after, keys = before ++ c :: after → IsDelete c → edit max before ≠ [] →
    (start + (edit max before).length) % 38 ≠ 0

/-! ## The board under the line -/

variable {font : ℕ → UInt8} {max : ℤ} {start scrolled row column : ℕ} {buffer keys : List UInt8} {ch : UInt8}
  {cells : Cells} {b : Board} {t : Terminal}

/-- The cells hold the text, and from its end on they are blank. -/
structure Written (font : ℕ → UInt8) (start : ℕ) (buffer : List UInt8) (scrolled : ℕ) (cells : Cells) : Prop where
  text : ∀ r < 20, ∀ c < 38, ∀ n ch, (r + scrolled) * 38 + c = start + n → buffer[n]? = some ch →
    cells r c = letter font ch
  behind : ∀ r < 20, ∀ c < 38, start + buffer.length ≤ (r + scrolled) * 38 + c → cells r c = blank

/-- The board holds the text, and the cursor is behind it. -/
structure Aligned (font : ℕ → UInt8) (start : ℕ) (buffer : List UInt8) (scrolled : ℕ) (b : Board) : Prop where
  row : b.row + scrolled = (start + buffer.length) / 38
  column : b.column = (start + buffer.length) % 38
  written : Written font start buffer scrolled (b.cells.paint b.row b.column blank)
  cursor : b.cells b.row b.column = blank ∨ b.cells b.row b.column = blank.marked

/-- The place where the next character goes. -/
theorem place_iff {r c : ℕ} (hrow : row + scrolled = (start + buffer.length) / 38)
    (hcolumn : column = (start + buffer.length) % 38) (hc : c < 38) :
    (r = row ∧ c = column) ↔ (r + scrolled) * 38 + c = start + buffer.length := by
  omega

theorem Cells.paint_same (cells : Cells) (row column : ℕ) (picture : Picture) :
    cells.paint row column picture row column = picture := if_pos ⟨rfl, rfl⟩

theorem Cells.paint_of_ne {r c : ℕ} (hne : ¬ (r = row ∧ c = column)) (picture : Picture) :
    cells.paint row column picture r c = cells r c := if_neg hne

/-- Putting the cursor behind the text. -/
theorem Written.cursorAt (hwritten : Written font start buffer scrolled cells)
    (hrow : row + scrolled = (start + buffer.length) / 38) (hcolumn : column = (start + buffer.length) % 38)
    (row_lt : row < 20) (column_lt : column < 38) :
    Aligned font start buffer scrolled (Board.cursorAt cells row column row_lt column_lt) := by
  have hblank : cells row column = blank :=
    hwritten.behind row row_lt column column_lt ((place_iff hrow hcolumn column_lt).mp ⟨rfl, rfl⟩).ge
  refine ⟨hrow, hcolumn, ⟨?_, ?_⟩, Or.inr ?_⟩
  · intro r hr c hc n ch hplace hch
    have hn : n < buffer.length := (List.getElem?_eq_some_iff.mp hch).1
    have hne : ¬ (r = row ∧ c = column) := by
      rw [place_iff hrow hcolumn hc]
      omega
    calc
      _ = (Board.cursorAt cells row column row_lt column_lt).cells r c := Cells.paint_of_ne hne blank
      _ = cells r c := Cells.paint_of_ne hne _
      _ = letter font ch := hwritten.text r hr c hc n ch hplace hch
  · intro r hr c hc hbehind
    by_cases hcell : r = row ∧ c = column
    · obtain ⟨rfl, rfl⟩ := hcell
      exact Cells.paint_same _ r c blank
    · calc
        _ = (Board.cursorAt cells row column row_lt column_lt).cells r c := Cells.paint_of_ne hcell blank
        _ = cells r c := Cells.paint_of_ne hcell _
        _ = blank := hwritten.behind r hr c hc hbehind
  · rw [← hblank]
    exact Cells.paint_same cells row column _

theorem Written.letter (hwritten : Written font start buffer scrolled cells)
    (hrow : row + scrolled = (start + buffer.length) / 38) (hcolumn : column = (start + buffer.length) % 38)
    (ch : UInt8) : Written font start (buffer ++ [ch]) scrolled (cells.paint row column (Gui.letter font ch)) := by
  refine ⟨?_, ?_⟩
  · intro r hr c hc n d hplace hd
    by_cases hcell : r = row ∧ c = column
    · have hn : n = buffer.length := by
        have hend := (place_iff hrow hcolumn hc).mp hcell
        omega
      rw [hn, List.getElem?_concat_length] at hd
      obtain rfl := Option.some.inj hd
      exact if_pos hcell
    · have hn : n ≠ buffer.length := fun heq ↦ hcell ((place_iff hrow hcolumn hc).mpr (heq ▸ hplace))
      have hlt : n < buffer.length := by
        have hlength := (List.getElem?_eq_some_iff.mp hd).1
        rw [List.length_append, List.length_singleton] at hlength
        omega
      rw [List.getElem?_append_left hlt] at hd
      rw [Cells.paint_of_ne hcell]
      exact hwritten.text r hr c hc n d hplace hd
  · intro r hr c hc hbehind
    rw [List.length_append, List.length_singleton] at hbehind
    have hne : ¬ (r = row ∧ c = column) := by
      rw [place_iff hrow hcolumn hc]
      omega
    rw [Cells.paint_of_ne hne]
    exact hwritten.behind r hr c hc (by omega)

/-- The last character is blanked. -/
theorem Written.blank (hwritten : Written font start (buffer ++ [ch]) scrolled cells) (row column : ℕ)
    (hrow : row + scrolled = (start + buffer.length) / 38) (hcolumn : column = (start + buffer.length) % 38) :
    Written font start buffer scrolled (cells.paint row column Gui.blank) := by
  refine ⟨?_, ?_⟩
  · intro r hr c hc n d hplace hd
    have hn : n < buffer.length := (List.getElem?_eq_some_iff.mp hd).1
    have hne : ¬ (r = row ∧ c = column) := by
      rw [place_iff hrow hcolumn hc]
      omega
    rw [Cells.paint_of_ne hne]
    refine hwritten.text r hr c hc n d hplace ?_
    rw [List.getElem?_append_left hn, hd]
  · intro r hr c hc hbehind
    by_cases hcell : r = row ∧ c = column
    · exact if_pos hcell
    · rw [Cells.paint_of_ne hcell]
      refine hwritten.behind r hr c hc ?_
      have hne : (r + scrolled) * 38 + c ≠ start + buffer.length := fun heq ↦
        hcell ((place_iff hrow hcolumn hc).mpr heq)
      rw [List.length_append, List.length_singleton]
      omega

/-- The text goes up with its row when it ends with the last one. -/
theorem Written.moveUp (hwritten : Written font start buffer scrolled cells)
    (hend : start + buffer.length = (20 + scrolled) * 38) :
    Written font start buffer (scrolled + 1) cells.scrolled := by
  refine ⟨?_, ?_⟩
  · intro r hr c hc n d hplace hd
    have hn : n < buffer.length := (List.getElem?_eq_some_iff.mp hd).1
    have hrow : r < 19 := by omega
    calc
      cells.scrolled r c = cells (r + 1) c := if_pos hrow
      _ = Gui.letter font d := hwritten.text (r + 1) (by omega) c hc n d (by omega) hd
  · intro r hr c hc hbehind
    by_cases hrow : r < 19
    · calc
        cells.scrolled r c = cells (r + 1) c := if_pos hrow
        _ = Gui.blank := hwritten.behind (r + 1) (by omega) c hc (by omega)
    · exact if_neg hrow

/-- A character that is not a control character is appended. -/
theorem Aligned.append (h : Aligned font start buffer scrolled b) (ch : UInt8) (hback : ch ≠ 8) (hnewline : ch ≠ 10)
    (hreturn : ch ≠ 13) : ∃ scrolled', Aligned font start (buffer ++ [ch]) scrolled' (b.putc font ch) := by
  have hwritten := h.written.letter h.row h.column ch
  have hrow := h.row
  have hcolumn := h.column
  have hrow_lt := b.row_lt
  have hlength : (buffer ++ [ch]).length = buffer.length + 1 := List.length_append
  unfold Board.putc
  dsimp only
  rw [if_neg hback, if_neg hnewline, if_neg hreturn]
  by_cases hwrap : b.column + 1 < 38
  · rw [dif_pos hwrap]
    exact ⟨scrolled, hwritten.cursorAt (by omega) (by omega) _ _⟩
  rw [dif_neg hwrap]
  unfold Board.nextRow
  by_cases hlast : b.row + 1 < 20
  · rw [dif_pos hlast]
    exact ⟨scrolled, hwritten.cursorAt (by omega) (by omega) _ _⟩
  · rw [dif_neg hlast]
    have hscrolled := hwritten.moveUp (by omega)
    exact ⟨scrolled + 1, hscrolled.cursorAt (by omega) (by omega) _ _⟩

/-- Behind a character in the same row, `'\b'` takes it back. -/
theorem Aligned.delete (h : Aligned font start (buffer ++ [ch]) scrolled b)
    (hrow : (start + (buffer ++ [ch]).length) % 38 ≠ 0) : Aligned font start buffer scrolled (b.putc font 8) := by
  have hb := h.row
  have hc := h.column
  have hlength : (buffer ++ [ch]).length = buffer.length + 1 := List.length_append
  rw [hlength] at hb hc hrow
  unfold Board.putc
  dsimp only
  rw [if_pos rfl]
  have hwritten := h.written.blank b.row (b.column - 1) (by omega) (by omega)
  exact hwritten.cursorAt (by omega) (by omega) _ _

/-- What `read_line` puts to take a character back. -/
theorem Aligned.erase (h : Aligned font start (buffer ++ [ch]) scrolled b)
    (hrow : (start + (buffer ++ [ch]).length) % 38 ≠ 0) :
    ∃ scrolled', Aligned font start buffer scrolled' (b.puts font [8, 32, 8]) := by
  have hback := h.delete hrow
  obtain ⟨scrolled', hspace⟩ := hback.append 32 (by decide) (by decide) (by decide)
  have hlength : (buffer ++ [(32 : UInt8)]).length = (buffer ++ [ch]).length := by
    rw [List.length_append, List.length_append, List.length_singleton, List.length_singleton]
  exact ⟨scrolled', hspace.delete (hlength ▸ hrow)⟩

/-! ## The keys of a line -/

/-- The screen shows what its board holds. -/
theorem Aligned.echo (h : Aligned font start buffer scrolled b) (hsees : Sees t b) :
    Echo font start buffer t := by
  have hcell : ∀ r < 20, ∀ c < 38, ∀ picture, b.cells r c = picture → CellShows t r c picture := by
    rintro r hr c hc picture rfl i hi j hj
    exact hsees.pixels r hr c hc i hi j hj
  have hrow := h.row
  have hcolumn := h.column
  refine ⟨scrolled, ⟨?_, ?_, ?_, ?_, ?_⟩⟩
  · rw [hsees.row]
    omega
  · rw [hsees.column, hcolumn]
  · intro r hr c hc n ch hplace hch
    have hn : n < buffer.length := (List.getElem?_eq_some_iff.mp hch).1
    have hne : ¬ (r = b.row ∧ c = b.column) := by
      rw [place_iff hrow hcolumn hc]
      omega
    have htext := h.written.text r hr c hc n ch hplace hch
    rw [Cells.paint_of_ne hne] at htext
    exact hcell r hr c hc _ htext
  · intro r hr c hc hplace
    obtain ⟨rfl, rfl⟩ := (place_iff hrow hcolumn hc).mpr hplace
    exact h.cursor.imp (hcell _ hr _ hc _) (hcell _ hr _ hc _)
  · intro r hr c hc hbehind
    have hne : ¬ (r = b.row ∧ c = b.column) := by
      rw [place_iff hrow hcolumn hc]
      omega
    have hblank := h.written.behind r hr c hc hbehind.le
    rw [Cells.paint_of_ne hne] at hblank
    exact hcell r hr c hc _ hblank

/-- What a screen shows that is ready for a line, with the picture of its cursor. -/
def readyCells (t : Terminal) (row column : ℕ) (picture : Picture) : Cells := fun r c ↦
  if row * 38 + column < r * 38 + c then blank
  else if r = row ∧ c = column then picture
  else fun i j ↦ t.pixels (cellPoint r c i j)

theorem readyCells_cursor (t : Terminal) (row column : ℕ) (picture : Picture) :
    readyCells t row column picture row column = picture := (if_neg (lt_irrefl _)).trans (if_pos ⟨rfl, rfl⟩)

theorem Ready.shows {picture : Picture} (h : Ready t row column) (hpicture : CellShows t row column picture) :
    Shows t.pixels (readyCells t row column picture) := by
  intro r hr c hc i hi j hj
  unfold readyCells
  by_cases hbehind : row * 38 + column < r * 38 + c
  · rw [if_pos hbehind]
    exact h.behind r hr c hc hbehind i hi j hj
  rw [if_neg hbehind]
  by_cases hcell : r = row ∧ c = column
  · rw [if_pos hcell, hcell.1, hcell.2]
    exact hpicture i hi j hj
  · rw [if_neg hcell]

theorem Ready.written {picture : Picture} (h : Ready t row column) (font : ℕ → UInt8) :
    Written font (row * 38 + column) [] 0 ((readyCells t row column picture).paint row column blank) := by
  have hcolumn_lt := h.column_lt
  refine ⟨?_, ?_⟩
  · intro r _ c _ n ch _ hch
    cases hch
  · intro r _ c hc hbehind
    rw [List.length_nil] at hbehind
    by_cases hcell : r = row ∧ c = column
    · exact if_pos hcell
    · rw [Cells.paint_of_ne hcell]
      exact if_pos (by omega)

/-- The board of a screen that is ready for a line. -/
theorem Ready.board (h : Ready t row column) (font : ℕ → UInt8) :
    ∃ b, Sees t b ∧ Aligned font (row * 38 + column) [] 0 b := by
  obtain ⟨picture, hpicture, hvacant⟩ : ∃ picture, CellShows t row column picture ∧
      (picture = blank ∨ picture = blank.marked) := by
    rcases h.cursor with hblank | hmarked
    · exact ⟨_, hblank, Or.inl rfl⟩
    · exact ⟨_, hmarked, Or.inr rfl⟩
  have hcolumn_lt := h.column_lt
  have hrow : row + 0 = (row * 38 + column) / 38 := by omega
  have hcolumn : column = (row * 38 + column) % 38 := by omega
  have hcursor := readyCells_cursor t row column picture
  refine ⟨⟨readyCells t row column picture, row, column, h.row_lt, hcolumn_lt⟩, ?_, ?_⟩
  · exact ⟨h.shows hpicture, h.row_eq, h.column_eq⟩
  · exact ⟨hrow, hcolumn, h.written font, hvacant.imp hcursor.trans hcursor.trans⟩

/-- One key: the line is edited, and the board stays aligned with it. -/
theorem readKey_aligned (max : ℤ) {s : Line} (hsees : Sees s.terminal b) (h : Aligned font start s.buffer scrolled b)
    (hrow : IsDelete ch → s.buffer ≠ [] → (start + s.buffer.length) % 38 ≠ 0) :
    ∃ s' b' scrolled', readKey font max ch s = .ok s' ∧ s'.buffer = editKey max s.buffer ch ∧
      Sees s'.terminal b' ∧ Aligned font start s'.buffer scrolled' b' := by
  obtain ⟨buffer, terminal⟩ := s
  dsimp only at hsees h hrow
  unfold readKey editKey
  dsimp only
  by_cases hdelete : IsDelete ch
  · rw [if_pos hdelete]
    by_cases hempty : buffer = []
    · subst hempty
      have hprintable : ¬ ((ch ≥ 32 ∧ ch < 127) ∧ (([] : List UInt8).length : ℤ) < max - 1) := by
        rcases hdelete with rfl | rfl
        · exact fun hprint ↦ absurd hprint.1.1 (by decide)
        · exact fun hprint ↦ absurd hprint.1.2 (by decide)
      rw [if_neg fun hand ↦ absurd hand.2 (lt_irrefl 0), if_neg hprintable]
      exact ⟨_, b, scrolled, rfl, rfl, hsees, h⟩
    · have hsplit := List.dropLast_concat_getLast hempty
      have hcolumn := hrow hdelete hempty
      rw [← hsplit] at h hcolumn
      obtain ⟨scrolled', herased⟩ := h.erase hcolumn
      obtain ⟨t', hputs, hsees', -⟩ := puts_sees font hsees [8, 32, 8]
      rw [if_pos ⟨hdelete, List.length_pos_iff.mpr hempty⟩, hputs, ok_bind]
      exact ⟨_, _, scrolled', rfl, rfl, hsees', herased⟩
  rw [if_neg hdelete, if_neg fun hand ↦ hdelete hand.1]
  by_cases hprint : (ch ≥ 32 ∧ ch < 127) ∧ (buffer.length : ℤ) < max - 1
  · have hcontrol : ∀ d : UInt8, d < 32 → ch ≠ d := by
      rintro d hd rfl
      exact absurd hprint.1.1 (UInt8.not_le.mpr hd)
    obtain ⟨scrolled', happended⟩ :=
      h.append ch (hcontrol 8 (by decide)) (hcontrol 10 (by decide)) (hcontrol 13 (by decide))
    obtain ⟨t', hputc, hsees', -⟩ := guiPutc_sees font hsees ch
    rw [if_pos hprint, if_pos hprint, hputc, ok_bind]
    exact ⟨_, _, scrolled', rfl, rfl, hsees', happended⟩
  · rw [if_neg hprint, if_neg hprint]
    exact ⟨_, b, scrolled, rfl, rfl, hsees, h⟩

theorem edit_append (max : ℤ) (keys : List UInt8) (c : UInt8) :
    edit max (keys ++ [c]) = editKey max (edit max keys) c := List.foldl_concat ..

/-- A line without room for a character stays empty. -/
theorem edit_of_le (hmax : max ≤ 1) (keys : List UInt8) : edit max keys = [] := by
  induction keys using List.reverseRecOn with
  | nil => rfl
  | append_singleton keys c ih =>
    rw [edit_append, ih, editKey]
    by_cases hdelete : IsDelete c
    · exact if_pos hdelete
    · rw [if_neg hdelete]
      refine if_neg fun hprint ↦ ?_
      have hroom := hprint.2
      rw [List.length_nil] at hroom
      omega

/-- The run of `read_line` over its keys. -/
theorem readLoop_aligned (before : List UInt8) {s : Line} (hnewline : 10 ∉ keys)
    (hdelete : DeletesInRow max start (before ++ keys)) (hbuffer : s.buffer = edit max before)
    (hsees : Sees s.terminal b) (h : Aligned font start s.buffer scrolled b) :
    ∃ s' b' scrolled', readLoop font max keys s = .ok s' ∧ s'.buffer = edit max (before ++ keys) ∧
      Sees s'.terminal b' ∧ Aligned font start s'.buffer scrolled' b' := by
  induction keys generalizing before s b scrolled with
  | nil => exact ⟨s, b, scrolled, rfl, hbuffer.trans (congrArg (edit max) before.append_nil.symm), hsees, h⟩
  | cons c keys ih =>
    have hc : c ≠ 10 := fun heq ↦ hnewline (heq ▸ List.mem_cons_self)
    have hrow : IsDelete c → s.buffer ≠ [] → (start + s.buffer.length) % 38 ≠ 0 := by
      rw [hbuffer]
      exact hdelete before c keys rfl
    obtain ⟨s', b', scrolled', hkey, hedit, hsees', h'⟩ := readKey_aligned max hsees h hrow
    have hassoc : before ++ c :: keys = before ++ [c] ++ keys := List.append_cons before c keys
    rw [readLoop, if_neg hc, hkey, ok_bind, hassoc]
    rw [hassoc] at hdelete
    refine ih (before ++ [c]) (fun hmem ↦ hnewline (List.mem_cons_of_mem c hmem)) hdelete ?_ hsees' h'
    rw [hedit, hbuffer, edit_append]

/-- As long as no character is taken back over the end of a row, the buffer is the edited line after every key, and
the screen shows it. -/
theorem readLine_echo (font : ℕ → UInt8) (max : ℤ) (t : Terminal) (row column : ℕ) (hready : Ready t row column)
    (keys : List UInt8) (hnewline : 10 ∉ keys) (hdelete : DeletesInRow max (row * 38 + column) keys) :
    ∃ s, readLine font max keys t = .ok s ∧ s.buffer = edit max keys ∧
      Echo font (row * 38 + column) (edit max keys) s.terminal := by
  obtain ⟨b, hsees, haligned⟩ := hready.board font
  unfold readLine
  by_cases hmax : max ≤ 0
  · have hedit : edit max keys = [] := edit_of_le (by omega) keys
    rw [if_pos hmax, hedit]
    exact ⟨_, rfl, rfl, haligned.echo hsees⟩
  · rw [if_neg hmax]
    obtain ⟨s, b', scrolled, hrun, hbuffer, hsees', haligned'⟩ :=
      readLoop_aligned (s := ⟨[], t⟩) [] hnewline hdelete rfl hsees haligned
    rw [List.nil_append] at hbuffer
    exact ⟨s, hrun, hbuffer, hbuffer ▸ haligned'.echo hsees'⟩

/-! ## Taking a character back over the end of a row -/

/-- In the first column the erase sequence leaves the cursor where it is. -/
theorem Board.column_puts_erase (font : ℕ → UInt8) (hcolumn : b.column = 0) :
    (b.puts font [8, 32, 8]).column = 0 := by
  have hspace : ∀ b : Board, b.column = 0 → (b.putc font 32).column = 1 := by
    intro b hb
    have hlt : b.column + 1 < 38 := by omega
    unfold Board.putc
    dsimp only
    rw [if_neg (by decide), if_neg (by decide), if_neg (by decide), dif_pos hlt]
    exact congrArg (· + 1) hb
  have hback : ∀ b : Board, (b.putc font 8).column = b.column - 1 := fun b ↦ rfl
  calc
    (b.puts font [8, 32, 8]).column = (((b.putc font 8).putc font 32).putc font 8).column := rfl
    _ = ((b.putc font 8).putc font 32).column - 1 := hback _
    _ = 1 - 1 := congrArg (· - 1) (hspace _ (by rw [hback, hcolumn]))

theorem readLoop_append {before : List UInt8} (hnewline : 10 ∉ before) (keys : List UInt8) (s : Line) :
    readLoop font max (before ++ keys) s = (do
      let s ← readLoop font max before s
      readLoop font max keys s) := by
  induction before generalizing s with
  | nil => rfl
  | cons c before ih =>
    have hc : c ≠ 10 := fun heq ↦ hnewline (heq ▸ List.mem_cons_self)
    rw [List.cons_append, readLoop, if_neg hc, readLoop, if_neg hc, bind_assoc]
    congr 1
    funext s'
    exact ih (fun hmem ↦ hnewline (List.mem_cons_of_mem c hmem)) s'

theorem DeletesInRow.of_append {before after : List UInt8} (h : DeletesInRow max start (before ++ after)) :
    DeletesInRow max start before := by
  intro first c rest hkeys
  refine h first c (rest ++ after) ?_
  rw [hkeys, List.append_assoc, List.cons_append]

/-- A key that takes a character back in the first column leaves a screen that does not show the line. -/
theorem not_echo_of_delete {s s' : Line} (hsees : Sees s.terminal b) (h : Aligned font start s.buffer scrolled b)
    (hkey : readKey font max ch s = .ok s') (hdelete : IsDelete ch) (hsome : s.buffer ≠ [])
    (hrow : (start + s.buffer.length) % 38 = 0) : ¬ Echo font start s.buffer.dropLast s'.terminal := by
  rintro ⟨moved, hecho⟩
  obtain ⟨t', hputs, hsees', -⟩ := puts_sees font hsees [8, 32, 8]
  have hlength : 0 < s.buffer.length := List.length_pos_iff.mpr hsome
  unfold readKey at hkey
  rw [if_pos ⟨hdelete, hlength⟩, hputs, ok_bind] at hkey
  obtain rfl := Except.ok.inj hkey
  have hstays := Board.column_puts_erase font (h.column.trans hrow)
  have hecho_column := hecho.column
  rw [List.length_dropLast] at hecho_column
  have hcolumn : t'.column = 0 := by
    rw [hsees'.column, hstays]
    rfl
  have hlast : (start + (s.buffer.length - 1)) % 38 = 37 := by omega
  rw [hlast] at hecho_column
  change t'.column = 37 at hecho_column
  omega

/-- Where the screen shows every line up to the last key, that key takes no character back in the first column. -/
theorem ne_zero_of_echo (hready : Ready t row column) (hnewline : 10 ∉ keys)
    (hkeys : DeletesInRow max (row * 38 + column) keys) (hch : ch ≠ 10) (hdelete : IsDelete ch)
    (hsome : edit max keys ≠ []) {s' : Line} (hrun : readLine font max (keys ++ [ch]) t = .ok s')
    (hecho : Echo font (row * 38 + column) (edit max (keys ++ [ch])) s'.terminal) :
    (row * 38 + column + (edit max keys).length) % 38 ≠ 0 := by
  intro hrow
  have hmax : ¬ max ≤ 0 := fun hle ↦ hsome (edit_of_le (by omega) keys)
  obtain ⟨b, hsees, haligned⟩ := hready.board font
  obtain ⟨s, b', scrolled, hloop, hbuffer, hsees', haligned'⟩ :=
    readLoop_aligned (s := ⟨[], t⟩) [] hnewline hkeys rfl hsees haligned
  rw [List.nil_append] at hbuffer
  rw [readLine, if_neg hmax, readLoop_append hnewline, hloop, ok_bind, readLoop, if_neg hch] at hrun
  have hkey : readKey font max ch s = .ok s' := by
    rw [← hrun]
    exact (bind_pure (readKey font max ch s)).symm
  have hedit : edit max (keys ++ [ch]) = s.buffer.dropLast := by
    rw [edit_append, ← hbuffer, editKey, if_pos hdelete]
  rw [← hbuffer] at hsome hrow
  exact not_echo_of_delete hsees' haligned' hkey hdelete hsome hrow (hedit ▸ hecho)

/-- On a screen that is ready for a line, the buffer is the edited line after every key and the screen shows it,
exactly if no character is taken back over the end of a row. -/
theorem readLine_echo_iff (font : ℕ → UInt8) (max : ℤ) (t : Terminal) (row column : ℕ) (hready : Ready t row column)
    (keys : List UInt8) (hnewline : 10 ∉ keys) :
    (∀ before after, keys = before ++ after → ∃ s, readLine font max before t = .ok s ∧
      s.buffer = edit max before ∧ Echo font (row * 38 + column) (edit max before) s.terminal) ↔
    DeletesInRow max (row * 38 + column) keys := by
  constructor
  · intro h
    induction keys using List.reverseRecOn with
    | nil =>
      intro before c after hkeys
      exact absurd hkeys.symm (List.append_ne_nil_of_right_ne_nil _ (List.cons_ne_nil c after))
    | append_singleton keys c ih =>
      have hnewline' : 10 ∉ keys := fun hmem ↦ hnewline (List.mem_append_left _ hmem)
      have hkeys : DeletesInRow max (row * 38 + column) keys := by
        refine ih hnewline' fun before after hsplit ↦ h before (after ++ [c]) ?_
        rw [hsplit, List.append_assoc]
      intro before d after hsplit hdelete hsome
      rcases List.eq_nil_or_concat after with rfl | ⟨after, e, rfl⟩
      · obtain ⟨rfl, hd⟩ := List.append_inj' hsplit rfl
        obtain rfl := (List.cons.inj hd).1
        obtain ⟨s', hrun, -, hecho⟩ := h (keys ++ [c]) [] (List.append_nil _).symm
        have hc : c ≠ 10 := fun heq ↦ hnewline (heq ▸ List.mem_append_right keys List.mem_cons_self)
        exact ne_zero_of_echo hready hnewline' hkeys hc hdelete hsome hrun hecho
      · have hassoc : before ++ d :: after.concat e = (before ++ d :: after) ++ [e] := by
          rw [List.concat_eq_append, List.append_assoc, List.cons_append]
        obtain ⟨hfront, -⟩ := List.append_inj' (hsplit.trans hassoc) rfl
        exact hkeys before d after hfront hdelete hsome
  · rintro hdelete before after rfl
    exact readLine_echo font max t row column hready before
      (fun hmem ↦ hnewline (List.mem_append_left _ hmem)) hdelete.of_append

/-- Every row of a glyph is the code of its letter; the glyph of the space is empty. -/
def exampleFont (i : ℕ) : UInt8 := if i / 8 = 32 then 0 else UInt8.ofNat (i / 8)

theorem letter_exampleFont : letter exampleFont 97 ≠ blank ∧ letter exampleFont 97 ≠ letter exampleFont 98 :=
  ⟨fun h ↦ absurd (congrFun (congrFun h 1) 0) (by decide), fun h ↦ absurd (congrFun (congrFun h 6) 0) (by decide)⟩

/-- An empty screen with the cursor at the end of the first row. -/
def endOfRow : Terminal := ⟨fun _ ↦ ink, 0, 37, []⟩

theorem endOfRow_ready : Ready endOfRow 0 37 :=
  ⟨by decide, by decide, rfl, rfl, Or.inl fun _ _ _ _ ↦ rfl, fun _ _ _ _ _ _ _ _ _ ↦ rfl⟩

/-- Two letters over the end of a row, of which the second is taken back. -/
theorem readLine_echo_wrapped : ∃ s, readLine exampleFont 80 [97, 98, 8] endOfRow = .ok s ∧
    (s.buffer = edit 80 [97, 98, 8] ∧ Echo exampleFont (0 * 38 + 37) (edit 80 [97, 98, 8]) s.terminal) ∧
    letter exampleFont 97 ≠ blank ∧ letter exampleFont 97 ≠ letter exampleFont 98 := by
  have hdelete : DeletesInRow 80 (0 * 38 + 37) [97, 98, 8] := by
    intro before c after hkeys hdelete _
    match before, hkeys with
    | [], hkeys => exact absurd hdelete ((List.cons.inj hkeys).1 ▸ by decide)
    | [_], hkeys => exact absurd hdelete ((List.cons.inj (List.cons.inj hkeys).2).1 ▸ by decide)
    | [d, e], hkeys =>
      cases hkeys
      decide
    | _ :: _ :: _ :: before, hkeys =>
      have hlength := congrArg List.length hkeys
      simp only [List.length_cons, List.cons_append, List.length_append, List.length_nil] at hlength
      omega
  obtain ⟨s, hrun, hecho⟩ := (readLine_echo_iff exampleFont 80 endOfRow 0 37 endOfRow_ready [97, 98, 8]
    (by decide)).mpr hdelete [97, 98, 8] [] rfl
  exact ⟨s, hrun, hecho, letter_exampleFont⟩

/-- A letter at the end of a row that is taken back: the line is empty, but the cursor stays in the second row. -/
theorem readLine_losesEcho : Ready endOfRow 0 37 ∧ 10 ∉ ([97, 8] : List UInt8) ∧
    ∃ s, readLine exampleFont 80 [97, 8] endOfRow = .ok s ∧ s.buffer = edit 80 [97, 8] ∧ s.terminal.row = 1 ∧
      CellShows s.terminal 0 37 (letter exampleFont 97) ∧ letter exampleFont 97 ≠ blank ∧
      ¬ Echo exampleFont (0 * 38 + 37) (edit 80 [97, 8]) s.terminal := by
  let b : Board := ⟨fun _ _ ↦ blank, 0, 37, by decide, by decide⟩
  have hsees : Sees endOfRow b := ⟨fun _ _ _ _ _ _ _ _ ↦ rfl, rfl, rfl⟩
  obtain ⟨t', hputc, hsees', -⟩ := guiPutc_sees exampleFont hsees 97
  obtain ⟨t'', hputs, hsees'', -⟩ := puts_sees exampleFont hsees' [8, 32, 8]
  have hrun : readLine exampleFont 80 [97, 8] endOfRow = .ok ⟨[], t''⟩ := by
    have hfirst : readKey exampleFont 80 97 ⟨[], endOfRow⟩ = .ok ⟨[97], t'⟩ := by
      unfold readKey
      rw [if_neg (by decide), if_pos (by decide)]
      dsimp only
      rw [hputc]
      rfl
    have hsecond : readKey exampleFont 80 8 ⟨[97], t'⟩ = .ok ⟨[], t''⟩ := by
      unfold readKey
      rw [if_pos ⟨Or.inl rfl, Nat.one_pos⟩]
      dsimp only
      rw [hputs]
      rfl
    unfold readLine
    rw [if_neg (by decide), readLoop, if_neg (by decide), hfirst, ok_bind, readLoop, if_neg (by decide), hsecond,
      ok_bind, readLoop]
  have hcell : CellShows t'' 0 37 (letter exampleFont 97) := hsees''.pixels 0 (by decide) 37 (by decide)
  refine ⟨endOfRow_ready, by decide, _, hrun, rfl, hsees''.row, hcell, letter_exampleFont.1, ?_⟩
  rintro ⟨scrolled, hecho⟩
  have hrow := hecho.row
  have hone : t''.row = 1 := hsees''.row
  have hstart : ((0 * 38 + 37 + (edit 80 [97, 8]).length) / 38 : ℕ) = 0 := by decide
  rw [hstart] at hrow
  dsimp only at hrow
  omega

end JordyOS.Gui
