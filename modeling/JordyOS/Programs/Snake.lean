import Mathlib.Data.List.Chain
import Mathlib.Data.Nat.Notation
import Mathlib.Tactic.Common

/-!
# Snake

The rules and the frames of `snake.ape`.  Coordinates are integers, `random` draws arbitrary numbers below its
bound, and a frame in which `place_food` has not drawn a free cell is not over yet.
-/

namespace JordyOS.Programs

/-! ## Arrays -/

/-- Why there is no next frame. -/
inductive Stop
  /-- An index outside an array. -/
  | range
  /-- No free cell has been drawn so far. -/
  | drawing
  deriving DecidableEq

abbrev Game := Except Stop

def read (cells : List ℤ) (i : ℕ) : Game ℤ :=
  match cells[i]? with
  | none => .error .range
  | some n => .ok n

def write (cells : List ℤ) (i : ℕ) (n : ℤ) : Game (List ℤ) :=
  if i < cells.length then .ok (cells.set i n) else .error .range

/-! ## The program -/

/-- The global variables. -/
structure Snake where
  xs : List ℤ
  ys : List ℤ
  length : ℕ
  score : ℕ
  dx : ℤ
  dy : ℤ
  foodx : ℤ
  foody : ℤ
  running : Bool
  playing : Bool
  started : Bool
  won : Bool
  deriving DecidableEq

def initial : Snake :=
  ⟨List.replicate 128 0, List.replicate 128 0, 4, 0, 1, 0, 0, 0, true, false, false, false⟩

/-- A draw of `random(30)` and `random(15)`. -/
abbrev Draw := Fin 30 × Fin 15

/-- The loops that compare a cell with those of the snake from `i` on. -/
def meets (xs ys : List ℤ) (x y : ℤ) : (left i : ℕ) → (found : Bool) → Game Bool
  | 0, _, found => .ok found
  | left + 1, i, found => do
    let x' ← read xs i
    let y' ← read ys i
    meets xs ys x y left (i + 1) (if x' = x ∧ y' = y then true else found)

def placeFood : (draws : List Draw) → Snake → Game Snake
  | [], _ => .error .drawing
  | draw :: draws, s => do
    let s := { s with foodx := draw.1.val, foody := draw.2.val }
    let occupied ← meets s.xs s.ys s.foodx s.foody s.length 0 false
    if !occupied then .ok s else placeFood draws s

/-- The loop of `reset`. -/
def layOut : (left i : ℕ) → (xs ys : List ℤ) → Game (List ℤ × List ℤ)
  | 0, _, xs, ys => .ok (xs, ys)
  | left + 1, i, xs, ys => do
    let xs ← write xs i (15 - i)
    let ys ← write ys i 7
    layOut left (i + 1) xs ys

def reset (draws : List Draw) (s : Snake) : Game Snake := do
  let s := { s with length := 4, score := 0, dx := 1, dy := 0, won := false }
  let (xs, ys) ← layOut s.length 0 s.xs s.ys
  placeFood draws { s with xs := xs, ys := ys }

/-- A service of the kernel that draws. -/
inductive Call
  | paint (x y width height color : ℤ)
  | drawText (x y : ℤ) (text : String) (color : ℤ)
  | drawNumber (x y : ℤ) (number : ℕ) (color : ℤ)
  deriving DecidableEq

/-- The loop of `draw`. -/
def drawCells (s : Snake) : (left i : ℕ) → Game (List Call)
  | 0, _ => .ok []
  | left + 1, i => do
    let x ← read s.xs i
    let y ← read s.ys i
    let calls ← drawCells s left (i + 1)
    .ok (.paint (x * 10 + 11) (y * 10 + 33) 8 8 (if i = 0 then 5 else 4) :: calls)

def draw (s : Snake) : Game (List Call) := do
  let cells ← drawCells s s.length 0
  .ok ([.paint 0 0 320 200 0, .paint 0 0 320 25 1, .drawText 10 8 "SNAKE / Apelang" 5, .drawText 200 8 "Score:" 7,
    .drawNumber 256 8 s.score 6, .paint 9 31 302 152 4, .paint 10 32 300 150 8,
    .paint (s.foodx * 10 + 12) (s.foody * 10 + 34) 6 6 6] ++ cells ++
    [.drawText 10 190 "Arrows/WASD: move   Q/Esc: quit" 3])

def turn (button : String) (s : Snake) : Snake :=
  let s := if (button = "up" ∨ button = "w") ∧ s.dy ≠ 1 then { s with dx := 0, dy := -1 } else s
  let s := if (button = "down" ∨ button = "s") ∧ s.dy ≠ -1 then { s with dx := 0, dy := 1 } else s
  let s := if (button = "left" ∨ button = "a") ∧ s.dx ≠ 1 then { s with dx := -1, dy := 0 } else s
  if (button = "right" ∨ button = "d") ∧ s.dx ≠ -1 then { s with dx := 1, dy := 0 } else s

/-- The loop that moves the cells up, from `i` down to the second one. -/
def shift : (i : ℕ) → (xs ys : List ℤ) → Game (List ℤ × List ℤ)
  | 0, xs, ys => .ok (xs, ys)
  | i + 1, xs, ys => do
    let x ← read xs i
    let xs ← write xs (i + 1) x
    let y ← read ys i
    let ys ← write ys (i + 1) y
    shift i xs ys

/-- The part of `step` behind the test for a collision. -/
def advance (draws : List Draw) (s : Snake) (nextx nexty : ℤ) (growing : Bool) : Game Snake := do
  let s := if growing then { s with length := s.length + 1, score := s.score + 1 } else s
  let s := if growing ∧ s.length ≥ 128 then { s with won := true, playing := false, length := 128 } else s
  let (xs, ys) ← shift (s.length - 1) s.xs s.ys
  let xs ← write xs 0 nextx
  let ys ← write ys 0 nexty
  let s := { s with xs := xs, ys := ys }
  if growing ∧ s.playing then placeFood draws s else .ok s

def step (draws : List Draw) (s : Snake) : Game Snake := do
  let x ← read s.xs 0
  let y ← read s.ys 0
  let nextx := x + s.dx
  let nexty := y + s.dy
  let growing : Bool := nextx = s.foodx ∧ nexty = s.foody
  let collision : Bool := nextx < 0 ∨ nextx ≥ 30 ∨ nexty < 0 ∨ nexty ≥ 15
  let count := if growing then s.length else s.length - 1
  let collision ← meets s.xs s.ys nextx nexty count 0 collision
  if collision then .ok { s with playing := false } else advance draws s nextx nexty growing

/-- One round of the main loop, with the button that is pressed and what `random` yields. -/
def frame (s : Snake) (button : String) (draws : List Draw) : Game (Snake × List Call) :=
  if !s.running then .ok (s, [])
  else if button = "q" ∨ button = "escape" then .ok ({ s with running := false }, [])
  else if !s.playing then do
    let calls ← draw s
    let banner : Call := if !s.started then .drawText 53 89 "SNAKE IN APELANG" 5
      else if s.won then .drawText 101 89 "YOU WIN!" 5 else .drawText 117 89 "GAME OVER" 6
    let calls := calls ++ [.paint 33 77 254 55 1, banner, .drawText 53 112 "Press Enter to play" 7]
    if button = "enter" then
      let s ← reset draws s
      .ok ({ s with playing := true, started := true }, calls)
    else .ok (s, calls)
  else do
    let s ← step draws (turn button s)
    let calls ← draw s
    .ok (s, calls)

/-- What is pressed and drawn in a frame. -/
structure Input where
  button : String
  draws : List Draw

def frames : List Input → Snake → Game Snake
  | [], s => .ok s
  | input :: inputs, s => do
    let (s, _) ← frame s input.button input.draws
    frames inputs s

/-- The program up to the end of some frame. -/
def play (draws : List Draw) (inputs : List Input) : Game Snake := do
  let s ← reset draws initial
  frames inputs s

end JordyOS.Programs
