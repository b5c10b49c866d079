import JordyOS.Machine.Decimal
import JordyOS.Machine.Raster
import Mathlib.Data.UInt

/-!
# Drawing primitives and the terminal

The part of `gui.c` that draws: rectangles, glyphs and texts in the frame buffer of mode 13h, what the two drawing
calls of programs do, and the terminal with its cursor.  Every pixel is looked up in the 320 by 200 points of the
screen, and every sum of the clipping has to be an `int`; either of them is a fault otherwise.
-/

namespace JordyOS.Gui

open Machine

def screen : Screen := ⟨320, 200⟩

abbrev Pixels := Point → UInt8

def panel : UInt8 := 1

def muted : UInt8 := 3

def teal : UInt8 := 4

def mint : UInt8 := 5

def white : UInt8 := 7

def ink : UInt8 := 8

/-- The value of an `int` expression. -/
def int (n : ℤ) : Scan ℤ := if -2 ^ 31 ≤ n ∧ n < 2 ^ 31 then .ok n else fault

def rect (x y w h : ℤ) (color : UInt8) (pixels : Pixels) : Scan Pixels :=
  screen.fill (fun _ ↦ color) (block x y w h) pixels

section Font

-- The glyphs of the BIOS, of eight rows each.
variable (font : ℕ → UInt8)

/-- The glyph of `c` has the pixel `xx` of the row `yy` set. -/
def lit (c : UInt8) (xx yy : ℕ) : Bool :=
  let c := if c > 127 then '?'.toUInt8 else c
  font (c.toNat * 8 + yy) &&& (0x80 >>> UInt8.ofNat xx) != 0

def glyph (x y : ℤ) (c fg bg : UInt8) (pixels : Pixels) : Scan Pixels :=
  screen.fill (fun p ↦ if lit font c (p.1 - x).toNat (p.2 - y).toNat then fg else bg) (block x y 8 8) pixels

def text (x y : ℤ) : (label : List UInt8) → (fg bg : UInt8) → Pixels → Scan Pixels
  | [], _, _, pixels => .ok pixels
  | c :: label, fg, bg, pixels => do
    let pixels ← glyph font x y c fg bg pixels
    let x ← int (x + 8)
    text x y label fg bg pixels

/-- `if (n<0) { size+=n; n=0; }`. -/
def clipStart (n size : ℤ) : Scan (ℤ × ℤ) :=
  if n < 0 then do
    let size ← int (size + n)
    .ok (0, size)
  else .ok (n, size)

/-- `if (n+size>limit) size=limit-n;`. -/
def clipEnd (n size limit : ℤ) : Scan ℤ := do
  let behind ← int (n + size)
  if behind > limit then int (limit - n) else .ok size

def guiPaint (x y w h color : ℤ) (pixels : Pixels) : Scan Pixels :=
  if w ≤ 0 ∨ h ≤ 0 ∨ x ≥ 320 ∨ y ≥ 200 then .ok pixels
  else do
    let (x, w) ← clipStart x w
    let (y, h) ← clipStart y h
    let w ← clipEnd x w 320
    let h ← clipEnd y h 200
    if w > 0 ∧ h > 0 then rect x y w h (UInt8.ofInt color) pixels else .ok pixels

/-- The loop of `gui_drawtext`, which leaves the background as it is. -/
def drawChars (y : ℤ) (color : UInt8) : (x : ℤ) → (label : List UInt8) → Pixels → Scan Pixels
  | _, [], pixels => .ok pixels
  | x, c :: label, pixels =>
    if x ≤ 312 then do
      let pixels ← if x ≥ 0 then
          screen.fill (fun _ ↦ color)
            ((block x y 8 8).filter fun p ↦ lit font c (p.1 - x).toNat (p.2 - y).toNat) pixels
        else .ok pixels
      let x ← int (x + 8)
      drawChars y color x label pixels
    else .ok pixels

def guiDrawtext (x y : ℤ) (label : List UInt8) (color : ℤ) (pixels : Pixels) : Scan Pixels :=
  if y < 0 ∨ y > 192 then .ok pixels else drawChars font y (UInt8.ofInt color) x label pixels

/-! ## The terminal -/

structure Terminal where
  pixels : Pixels
  row : ℤ
  column : ℤ
  title : List UInt8

def guiClear (t : Terminal) : Scan Terminal := do
  let pixels ← rect 0 0 320 200 ink t.pixels
  let pixels ← rect 0 0 320 19 panel pixels
  let pixels ← rect 0 19 320 1 teal pixels
  let pixels ← text font 8 6 t.title white panel pixels
  let pixels ← rect 0 191 320 9 panel pixels
  let pixels ← text font 8 192 (bytesOf "JordyOS  /  Apelang runtime") muted panel pixels
  .ok { t with pixels := pixels, row := 0, column := 0 }

/-- The title is cut to the 37 bytes that fit in front of its terminator. -/
def guiTerminal (title : List UInt8) (t : Terminal) : Scan Terminal :=
  guiClear font { t with title := title.take 37 }

/-- What a character does behind the cursor, which is already erased. -/
def place (c : UInt8) (t : Terminal) : Scan Terminal :=
  if c = 8 then do
    let column := if t.column > 0 then t.column - 1 else t.column
    let pixels ← rect (8 + column * 8) (24 + t.row * 8) 8 8 ink t.pixels
    .ok { t with pixels := pixels, column := column }
  else if c = 10 then .ok { t with column := 0, row := t.row + 1 }
  else if c = 13 then .ok { t with column := 0 }
  else do
    let pixels ← glyph font (8 + t.column * 8) (24 + t.row * 8) c white ink t.pixels
    if t.column + 1 ≥ 38 then .ok { t with pixels := pixels, column := 0, row := t.row + 1 }
    else .ok { t with pixels := pixels, column := t.column + 1 }

/-- The rows below the first move up by one. -/
def scroll (t : Terminal) : Scan Terminal := do
  let pixels ← screen.move (fun p ↦ (p.1, p.2 + 8)) (block 8 24 304 152) t.pixels
  let pixels ← rect 8 176 304 8 ink pixels
  .ok { t with pixels := pixels, row := 19 }

def guiPutc (c : UInt8) (t : Terminal) : Scan Terminal := do
  let pixels ← rect (8 + t.column * 8) (24 + t.row * 8) 8 8 ink t.pixels
  let t ← place font c { t with pixels := pixels }
  let t ← if t.row ≥ 20 then scroll t else .ok t
  let pixels ← rect (8 + t.column * 8) (30 + t.row * 8) 7 1 mint t.pixels
  .ok { t with pixels := pixels }

/-- `puts`, as far as the terminal shows it. -/
def puts : (s : List UInt8) → Terminal → Scan Terminal
  | [], t => .ok t
  | c :: s, t => do
    let t ← guiPutc font c t
    puts s t

end Font

end JordyOS.Gui
