import JordyOS.Machine.Outcome
import JordyOS.Programs.Snake

/-!
# The rules of Snake

The arrays stand for a list of cells, of which the first ones are the snake.  A step puts the next cell in front
and drops the last one, unless the snake grows; from there on the rules hold in every frame.
-/

namespace JordyOS.Programs

open Machine

/-! ## Cells -/

abbrev Cell := ℤ × ℤ

/-- The arrays as cells, and the cells of the snake, its head first. -/
def Snake.cells (s : Snake) : List Cell := s.xs.zip s.ys

def Snake.body (s : Snake) : List Cell := s.cells.take s.length

def Snake.food (s : Snake) : Cell := (s.foodx, s.foody)

/-- The food is moved. -/
def Snake.feed (s : Snake) (food : Cell) : Snake := { s with foodx := food.1, foody := food.2 }

def OnBoard (c : Cell) : Prop := 0 ≤ c.1 ∧ c.1 < 30 ∧ 0 ≤ c.2 ∧ c.2 < 15

instance (c : Cell) : Decidable (OnBoard c) := inferInstanceAs (Decidable (_ ∧ _ ∧ _ ∧ _))

/-- Cells with a common edge. -/
def Neighbours (a b : Cell) : Prop := (a.1 - b.1).natAbs + (a.2 - b.2).natAbs = 1

/-- Both arrays are as long as the program declares them. -/
def Snake.Declared (s : Snake) : Prop := s.xs.length = 128 ∧ s.ys.length = 128

variable {s : Snake} {xs ys : List ℤ} {x y : ℤ} {left i n : ℕ} {draws : List Draw}

theorem Snake.Declared.length_cells (h : s.Declared) : s.cells.length = 128 := by
  rw [Snake.cells, List.length_zip, h.1, h.2, Nat.min_self]

theorem Snake.Declared.length_body (h : s.Declared) (hlength : s.length ≤ 128) : s.body.length = s.length := by
  rw [Snake.body, List.length_take, h.length_cells, Nat.min_eq_left hlength]

theorem read_eq {cells : List ℤ} (h : i < cells.length) : read cells i = .ok cells[i] := by
  rw [read, List.getElem?_eq_getElem h]

theorem write_eq {cells : List ℤ} (h : i < cells.length) (n : ℤ) : write cells i n = .ok (cells.set i n) := if_pos h

/-- The loop finds the cell among those it passes. -/
theorem meets_eq (hlength : xs.length = ys.length) (h : i + left ≤ xs.length) (found : Bool) :
    meets xs ys x y left i found = .ok (found || decide ((x, y) ∈ ((xs.zip ys).drop i).take left)) := by
  induction left generalizing i found with
  | zero => simp [meets]
  | succ left ih =>
    have hzip : i < (xs.zip ys).length := by
      rw [List.length_zip]
      omega
    rw [meets, read_eq (by omega : i < xs.length), read_eq (by omega : i < ys.length), ok_bind, ok_bind,
      ih (by omega), List.drop_eq_getElem_cons hzip, List.take_succ_cons, List.getElem_zip]
    congr 1
    by_cases hsame : xs[i] = x ∧ ys[i] = y
    · simp [hsame]
    · have hne : (x, y) ≠ (xs[i], ys[i]) := fun heq ↦ hsame ⟨(Prod.mk.inj heq).1.symm, (Prod.mk.inj heq).2.symm⟩
      rw [if_neg hsame]
      simp [hne]

/-- The first `count` cells are compared with a cell. -/
theorem Snake.Declared.meets (h : s.Declared) {count : ℕ} (hcount : count ≤ 128) (c : Cell) (found : Bool) :
    meets s.xs s.ys c.1 c.2 count 0 found = .ok (found || decide (c ∈ s.cells.take count)) := by
  have hlength : s.xs.length = s.ys.length := h.1.trans h.2.symm
  rw [meets_eq hlength (by rw [h.1]; omega), List.drop_zero]
  rfl

/-! ## Food -/

/-- Food is put on a cell of the board that is not of the snake. -/
theorem placeFood_cases (hdeclared : s.Declared) (hlength : s.length ≤ 128) (draws : List Draw) :
    placeFood draws s = .error .drawing ∨ ∃ food : Cell, OnBoard food ∧ food ∉ s.body ∧
      placeFood draws s = .ok (s.feed food) := by
  induction draws generalizing s with
  | nil => exact .inl rfl
  | cons draw draws ih =>
    let food : Cell := (draw.1.val, draw.2.val)
    have hmeets := hdeclared.meets hlength food false
    have hround : placeFood (draw :: draws) s =
        if !decide (food ∈ s.body) then .ok (s.feed food) else placeFood draws (s.feed food) := by
      change (Programs.meets s.xs s.ys food.1 food.2 s.length 0 false >>= fun occupied ↦
        if !occupied then .ok (s.feed food) else placeFood draws (s.feed food)) = _
      rw [hmeets, ok_bind, Bool.false_or]
      rfl
    rw [hround]
    by_cases hfree : food ∈ s.body
    · rw [decide_eq_true hfree]
      rcases @ih (s.feed food) hdeclared hlength with hdrawing | ⟨other, hboard, hother, hplaced⟩
      · exact .inl hdrawing
      · exact .inr ⟨other, hboard, hother, hplaced⟩
    · rw [decide_eq_false hfree]
      refine .inr ⟨food, ?_, hfree, rfl⟩
      have hx := draw.1.isLt
      have hy := draw.2.isLt
      change 0 ≤ (draw.1.val : ℤ) ∧ (draw.1.val : ℤ) < 30 ∧ 0 ≤ (draw.2.val : ℤ) ∧ (draw.2.val : ℤ) < 15
      omega

/-! ## Moving up -/

/-- The array behind the loop that moves its first `n` cells up. -/
def shifted (n : ℕ) (cells : List ℤ) : List ℤ := cells.take 1 ++ cells.take n ++ cells.drop (n + 1)

theorem shifted_zero (cells : List ℤ) : shifted 0 cells = cells := by
  rw [shifted, List.take_zero, List.append_nil, Nat.zero_add, List.take_append_drop]

theorem shifted_set {cells : List ℤ} (h : n + 1 < cells.length) :
    shifted n (cells.set (n + 1) cells[n]) = shifted (n + 1) cells := by
  have hfront (k : ℕ) (hk : k ≤ n + 1) : (cells.set (n + 1) cells[n]).take k = cells.take k :=
    List.take_set_of_le hk
  have hback : (cells.set (n + 1) cells[n]).drop (n + 1) = cells[n] :: cells.drop (n + 2) := by
    rw [List.drop_set, if_neg (Nat.lt_irrefl _), Nat.sub_self, List.drop_eq_getElem_cons h, List.set_cons_zero]
  rw [shifted, shifted, hfront 1 (by omega), hfront n (by omega), hback,
    List.take_succ_eq_append_getElem (by omega : n < cells.length)]
  simp only [List.append_assoc, List.singleton_append]

theorem shift_eq (hx : n < xs.length) (hy : n < ys.length) :
    shift n xs ys = .ok (shifted n xs, shifted n ys) := by
  induction n generalizing xs ys with
  | zero => rw [shift, shifted_zero, shifted_zero]
  | succ n ih =>
    rw [shift, read_eq (by omega), ok_bind, write_eq hx, ok_bind, read_eq (by omega), ok_bind, write_eq hy, ok_bind,
      ih (by rw [List.length_set]; omega) (by rw [List.length_set]; omega), shifted_set hx, shifted_set hy]

/-! ## The invariant -/

/-- What holds in every frame. -/
structure Snake.Valid (s : Snake) : Prop where
  declared : s.Declared
  length : 4 ≤ s.length ∧ s.length ≤ 128
  score : s.score = s.length - 4
  distinct : s.body.Nodup
  inside : ∀ c ∈ s.body, OnBoard c
  connected : s.body.IsChain Neighbours
  direction : s.dx.natAbs + s.dy.natAbs = 1
  /-- While a game is in progress, there is room for another cell. -/
  room : s.playing = true → s.length < 128
  food : s.playing = true → OnBoard s.food ∧ s.food ∉ s.body
  /-- The second cell is the one behind the head. -/
  heading : s.playing = true → ∀ second ∈ s.body[1]?, s.body[0]? = some (second.1 + s.dx, second.2 + s.dy)

/-- The cell that the head moves to. -/
def Snake.next (s : Snake) (head : Cell) : Cell := (head.1 + s.dx, head.2 + s.dy)

/-- What a button makes of the direction. -/
def Turned (s : Snake) (dx dy : ℤ) : Prop :=
  dx = s.dx ∧ dy = s.dy ∨ dx = 0 ∧ dy = -1 ∧ s.dy ≠ 1 ∨ dx = 0 ∧ dy = 1 ∧ s.dy ≠ -1 ∨
    dx = -1 ∧ dy = 0 ∧ s.dx ≠ 1 ∨ dx = 1 ∧ dy = 0 ∧ s.dx ≠ -1

theorem turn_cases (button : String) (s : Snake) :
    ∃ dx dy, turn button s = { s with dx := dx, dy := dy } ∧ Turned s dx dy := by
  unfold turn Turned
  by_cases hup : button = "up" ∨ button = "w"
  · have hdown : ¬ (button = "down" ∨ button = "s") := by rcases hup with rfl | rfl <;> decide
    have hleft : ¬ (button = "left" ∨ button = "a") := by rcases hup with rfl | rfl <;> decide
    have hright : ¬ (button = "right" ∨ button = "d") := by rcases hup with rfl | rfl <;> decide
    simp only [hup, hdown, hleft, hright, true_and, false_and, if_false]
    by_cases hback : s.dy = 1
    · exact ⟨s.dx, s.dy, by rw [if_neg (not_not.mpr hback)], .inl ⟨rfl, rfl⟩⟩
    · exact ⟨0, -1, by rw [if_pos hback], .inr (.inl ⟨rfl, rfl, hback⟩)⟩
  by_cases hdown : button = "down" ∨ button = "s"
  · have hleft : ¬ (button = "left" ∨ button = "a") := by rcases hdown with rfl | rfl <;> decide
    have hright : ¬ (button = "right" ∨ button = "d") := by rcases hdown with rfl | rfl <;> decide
    simp only [hup, hdown, hleft, hright, true_and, false_and, if_false]
    by_cases hback : s.dy = -1
    · exact ⟨s.dx, s.dy, by rw [if_neg (not_not.mpr hback)], .inl ⟨rfl, rfl⟩⟩
    · exact ⟨0, 1, by rw [if_pos hback], .inr (.inr (.inl ⟨rfl, rfl, hback⟩))⟩
  by_cases hleft : button = "left" ∨ button = "a"
  · have hright : ¬ (button = "right" ∨ button = "d") := by rcases hleft with rfl | rfl <;> decide
    simp only [hup, hdown, hleft, hright, true_and, false_and, if_false]
    by_cases hback : s.dx = 1
    · exact ⟨s.dx, s.dy, by rw [if_neg (not_not.mpr hback)], .inl ⟨rfl, rfl⟩⟩
    · exact ⟨-1, 0, by rw [if_pos hback], .inr (.inr (.inr (.inl ⟨rfl, rfl, hback⟩)))⟩
  simp only [hup, hdown, hleft, false_and, if_false]
  by_cases hright : (button = "right" ∨ button = "d") ∧ s.dx ≠ -1
  · exact ⟨1, 0, by rw [if_pos hright], .inr (.inr (.inr (.inr ⟨rfl, rfl, hright.2⟩)))⟩
  · exact ⟨s.dx, s.dy, by rw [if_neg hright], .inl ⟨rfl, rfl⟩⟩

/-- A turn does not lead back. -/
theorem Turned.ne_back {dx dy : ℤ} (h : Turned s dx dy) (hs : s.dx.natAbs + s.dy.natAbs = 1) :
    dx.natAbs + dy.natAbs = 1 ∧ ¬ (dx = -s.dx ∧ dy = -s.dy) := by
  unfold Turned at h
  omega

/-- Before a step the second cell is not the one ahead. -/
structure Snake.Aimed (s : Snake) : Prop where
  declared : s.Declared
  length : 4 ≤ s.length ∧ s.length < 128
  score : s.score = s.length - 4
  distinct : s.body.Nodup
  inside : ∀ c ∈ s.body, OnBoard c
  connected : s.body.IsChain Neighbours
  direction : s.dx.natAbs + s.dy.natAbs = 1
  food : OnBoard s.food ∧ s.food ∉ s.body
  playing : s.playing = true
  ahead : ∀ head ∈ s.body[0]?, s.body[1]? ≠ some (s.next head)

theorem Snake.Valid.aimed (h : s.Valid) (hplaying : s.playing = true) (button : String) :
    (turn button s).Aimed := by
  obtain ⟨dx, dy, hturn, hturned⟩ := turn_cases button s
  obtain ⟨hdirection, hback⟩ := hturned.ne_back h.direction
  rw [hturn]
  refine ⟨h.declared, ⟨h.length.1, h.room hplaying⟩, h.score, h.distinct, h.inside, h.connected, hdirection,
    h.food hplaying, hplaying, fun head hhead hsecond ↦ ?_⟩
  have hhead' : head = (head.1 + dx + s.dx, head.2 + dy + s.dy) :=
    Option.some.inj (hhead.symm.trans (h.heading hplaying _ hsecond))
  have hx : head.1 = head.1 + dx + s.dx := congrArg Prod.fst hhead'
  have hy : head.2 = head.2 + dy + s.dy := congrArg Prod.snd hhead'
  exact hback ⟨by omega, by omega⟩

/-! ## Steps -/

/-- A game that does not leave its arrays, and in which `P` holds when it is over. -/
structure Yields {α : Type} (P : α → Prop) (game : Game α) : Prop where
  inRange : game ≠ .error .range
  result : ∀ a, game = .ok a → P a

variable {α β : Type} {P : α → Prop}

theorem Yields.ok {a : α} (h : P a) : Yields P (.ok a) :=
  ⟨nofun, fun _ heq ↦ Except.ok.inj heq ▸ h⟩

theorem Yields.drawing : Yields P (.error .drawing) := ⟨nofun, nofun⟩

theorem Yields.bind {Q : β → Prop} {game : Game α} {f : α → Game β} (h : Yields P game)
    (hf : ∀ a, P a → Yields Q (f a)) : Yields Q (game >>= f) := by
  cases game with
  | error stop =>
    cases stop with
    | range => exact absurd rfl h.inRange
    | drawing => exact .drawing
  | ok a => exact hf a (h.result a rfl)

theorem Yields.mono {Q : α → Prop} {game : Game α} (h : Yields P game) (hPQ : ∀ a, P a → Q a) : Yields Q game :=
  ⟨h.inRange, fun a heq ↦ hPQ a (h.result a heq)⟩

/-- The arrays with the first `n` cells moved up and a cell in front. -/
def Snake.moved (s : Snake) (n : ℕ) (c : Cell) : Snake :=
  { s with xs := c.1 :: (s.xs.take n ++ s.xs.drop (n + 1)), ys := c.2 :: (s.ys.take n ++ s.ys.drop (n + 1)) }

theorem set_shifted {cells : List ℤ} (h : n < cells.length) (a : ℤ) :
    (shifted n cells).set 0 a = a :: (cells.take n ++ cells.drop (n + 1)) := by
  cases cells with
  | nil => exact absurd h (Nat.not_lt_zero _)
  | cons first rest => rfl

theorem length_shifted {cells : List ℤ} (h : n < cells.length) : (shifted n cells).length = cells.length := by
  rw [shifted, List.length_append, List.length_append, List.length_take, List.length_take, List.length_drop]
  omega

theorem Snake.Declared.moved (h : s.Declared) (hn : n < 128) (c : Cell) : (s.moved n c).Declared := by
  have hlength (cells : List ℤ) (a : ℤ) (hcells : cells.length = 128) :
      (a :: (cells.take n ++ cells.drop (n + 1))).length = 128 := by
    rw [List.length_cons, List.length_append, List.length_take, List.length_drop, hcells]
    omega
  exact ⟨hlength s.xs c.1 h.1, hlength s.ys c.2 h.2⟩

theorem Snake.Declared.take_moved (h : s.Declared) (hn : n < 128) (c : Cell) :
    (s.moved n c).cells.take (n + 1) = c :: s.cells.take n := by
  have htake : (s.xs.take n).length = (s.ys.take n).length := by
    rw [List.length_take, List.length_take, h.1, h.2]
  have hfront : (s.xs.take n).zip (s.ys.take n) = s.cells.take n := List.take_zipWith.symm
  have hcells : (s.moved n c).cells = c :: (s.cells.take n ++ (s.xs.drop (n + 1)).zip (s.ys.drop (n + 1))) := by
    rw [Snake.cells, Snake.moved, List.zip_cons_cons, List.zip_append htake, hfront]
  have hlength : (s.cells.take n).length = n := by
    rw [List.length_take, h.length_cells]
    omega
  rw [hcells, List.take_succ_cons, List.take_left' hlength]

/-- The cells are moved up and the next one is written in front. -/
theorem Snake.Declared.moving (h : s.Declared) (hn : n < 128) (c : Cell) (f : List ℤ → List ℤ → Game Snake) :
    (shift n s.xs s.ys >>= fun cells ↦ write cells.1 0 c.1 >>= fun xs ↦ write cells.2 0 c.2 >>= fun ys ↦ f xs ys) =
      f (s.moved n c).xs (s.moved n c).ys := by
  have hx : n < s.xs.length := by rw [h.1]; exact hn
  have hy : n < s.ys.length := by rw [h.2]; exact hn
  rw [shift_eq hx hy, ok_bind, write_eq (by rw [length_shifted hx]; omega), ok_bind,
    write_eq (by rw [length_shifted hy]; omega), ok_bind, set_shifted hx, set_shifted hy]
  rfl

theorem advance_moving (h : s.Declared) (hlength : 4 ≤ s.length ∧ s.length < 128) (draws : List Draw) (c : Cell) :
    advance draws s c.1 c.2 false = .ok (s.moved (s.length - 1) c) := by
  have hn : s.length - 1 < 128 := by omega
  exact h.moving hn c fun xs ys ↦ .ok { s with xs := xs, ys := ys }

/-- The snake grows: the last cell ends the game, and before there is new food. -/
theorem advance_growing (h : s.Declared) (hlength : 4 ≤ s.length ∧ s.length < 128) (hplaying : s.playing = true)
    (draws : List Draw) (c : Cell) :
    advance draws s c.1 c.2 true =
      if s.length = 127 then
        .ok ({ s with length := 128, score := s.score + 1, won := true, playing := false }.moved s.length c)
      else placeFood draws ({ s with length := s.length + 1, score := s.score + 1 }.moved s.length c) := by
  by_cases hlast : s.length = 127
  · have hlimit : s.length + 1 ≥ 128 := by omega
    rw [if_pos hlast]
    unfold advance
    simp only [if_true, hlimit, true_and, Bool.false_eq_true, and_false, if_false]
    rw [show 128 - 1 = s.length from hlast.symm]
    exact h.moving hlength.2 c fun xs ys ↦ .ok
      { s with length := 128, score := s.score + 1, won := true, playing := false, xs := xs, ys := ys }
  · have hlimit : ¬ s.length + 1 ≥ 128 := by omega
    rw [if_neg hlast]
    unfold advance
    simp only [if_true, hlimit, true_and, and_false, if_false, Nat.add_sub_cancel]
    exact (h.moving hlength.2 c fun xs ys ↦
      let grown := { s with length := s.length + 1, score := s.score + 1, xs := xs, ys := ys }
      if s.playing = true then placeFood draws grown else .ok grown).trans (if_pos hplaying)

/-- The snake with the next cell in front, of which the last cell is dropped or not. -/
theorem Snake.Aimed.valid_moved {t : Snake} {head : Cell} (h : s.Aimed) (hhead : s.body[0]? = some head)
    (hboard : OnBoard (s.next head)) (hn : s.length ≤ n + 1 ∧ n ≤ s.length) (hfree : s.next head ∉ s.cells.take n)
    (hxs : t.xs = (s.moved n (s.next head)).xs) (hys : t.ys = (s.moved n (s.next head)).ys)
    (hlength : t.length = n + 1) (hscore : t.score = t.length - 4) (hdx : t.dx = s.dx) (hdy : t.dy = s.dy)
    (hroom : t.playing = true → t.length < 128) (hfood : t.playing = true → OnBoard t.food ∧ t.food ∉ t.body) :
    t.Valid := by
  have hlow := h.length
  have hdeclared : t.Declared := by
    have hmoved := h.declared.moved (by omega : n < 128) (s.next head)
    exact ⟨hxs ▸ hmoved.1, hys ▸ hmoved.2⟩
  have hbody : t.body = s.next head :: s.cells.take n := by
    rw [Snake.body, hlength, ← h.declared.take_moved (by omega : n < 128), Snake.cells, hxs, hys, ← Snake.cells]
  have hrest : s.cells.take n = s.body.take n := by
    rw [Snake.body, List.take_take, Nat.min_eq_left hn.2]
  have hfirst : (s.cells.take n)[0]? = some head := by
    have hpos : 0 < n := by have := h.length; omega
    rw [hrest, List.getElem?_take_of_lt hpos, hhead]
  refine ⟨hdeclared, by omega, hscore, ?_, ?_, ?_, by rw [hdx, hdy]; exact h.direction, hroom, hfood, ?_⟩
  · rw [hbody, hrest]
    rw [hrest] at hfree
    exact List.nodup_cons.mpr ⟨hfree, h.distinct.sublist (List.take_sublist n _)⟩
  · rw [hbody]
    intro c hc
    rcases List.mem_cons.mp hc with rfl | hold
    · exact hboard
    · rw [hrest] at hold
      exact h.inside c (List.mem_of_mem_take hold)
  · rw [hbody, List.isChain_cons]
    refine ⟨fun second hsecond ↦ ?_, by rw [hrest]; exact h.connected.take n⟩
    rw [List.head?_eq_getElem?, hfirst] at hsecond
    obtain rfl := Option.some.inj hsecond
    have hstep := h.direction
    unfold Neighbours Snake.next
    dsimp only
    omega
  · intro _ second hsecond
    rw [hbody, List.getElem?_cons_succ, hfirst] at hsecond
    obtain rfl := Option.some.inj hsecond
    rw [hbody, hdx, hdy]
    rfl

/-- A collision ends the game and moves nothing. -/
theorem Snake.Aimed.stopped (h : s.Aimed) : { s with playing := false }.Valid := by
  have hroom := h.length
  exact ⟨h.declared, ⟨hroom.1, by change s.length ≤ 128; omega⟩, h.score, h.distinct, h.inside, h.connected,
    h.direction, nofun, nofun, nofun⟩

/-- The two tests for a collision come to one. -/
theorem Snake.Aimed.step_eq {head : Cell} (h : s.Aimed) (hhead : s.body[0]? = some head) (draws : List Draw) :
    step draws s =
      if OnBoard (s.next head) ∧
          s.next head ∉ s.cells.take (if s.next head = s.food then s.length else s.length - 1) then
        advance draws s (s.next head).1 (s.next head).2 (s.next head = s.food)
      else .ok { s with playing := false } := by
  have hlength := h.length
  have hread : read s.xs 0 = .ok head.1 ∧ read s.ys 0 = .ok head.2 := by
    rw [Snake.body, List.getElem?_take_of_lt (by omega), Snake.cells, List.getElem?_zip_eq_some] at hhead
    rw [read, read, hhead.1, hhead.2]
    exact ⟨rfl, rfl⟩
  unfold step
  rw [hread.1, ok_bind, hread.2, ok_bind]
  dsimp only
  have hsame : (head.1 + s.dx = s.foodx ∧ head.2 + s.dy = s.foody) = (s.next head = s.food) :=
    (Prod.mk.injEq _ _ _ _).symm
  simp only [hsame, decide_eq_true_eq]
  have hcount : (if s.next head = s.food then s.length else s.length - 1) ≤ 128 := by
    split <;> omega
  have hout : decide (head.1 + s.dx < 0 ∨ head.1 + s.dx ≥ 30 ∨ head.2 + s.dy < 0 ∨ head.2 + s.dy ≥ 15) =
      !decide (OnBoard (s.next head)) := by
    rw [← decide_not, decide_eq_decide]
    unfold OnBoard Snake.next
    dsimp only
    omega
  generalize (if s.next head = s.food then s.length else s.length - 1) = count at hcount ⊢
  rw [hout]
  have hmeets := h.declared.meets hcount (s.next head) (!decide (OnBoard (s.next head)))
  rw [Snake.next] at hmeets ⊢
  rw [hmeets, ok_bind]
  by_cases hboard : OnBoard (head.1 + s.dx, head.2 + s.dy)
  · by_cases hfree : (head.1 + s.dx, head.2 + s.dy) ∈ s.cells.take count
    · simp only [hboard, hfree, decide_true, Bool.or_true, if_true, not_true, and_false, if_false]
    · simp only [hboard, hfree, decide_true, decide_false, Bool.not_true, Bool.or_false, not_false_eq_true, and_self,
        if_true, Bool.false_eq_true, if_false]
  · simp only [hboard, decide_false, Bool.not_false, Bool.true_or, if_true, false_and, if_false]

/-- A step keeps to the rules. -/
theorem Snake.Aimed.step_valid (h : s.Aimed) (draws : List Draw) : Yields Snake.Valid (step draws s) := by
  obtain ⟨head, hhead⟩ : ∃ head, s.body[0]? = some head := by
    have hlength := h.declared.length_body (by have := h.length; omega)
    exact ⟨_, List.getElem?_eq_getElem (by rw [hlength]; have := h.length; omega)⟩
  rw [h.step_eq hhead]
  by_cases hmoves : OnBoard (s.next head) ∧
      s.next head ∉ s.cells.take (if s.next head = s.food then s.length else s.length - 1)
  swap
  · rw [if_neg hmoves]
    exact .ok h.stopped
  rw [if_pos hmoves]
  obtain ⟨hboard, hfree⟩ := hmoves
  by_cases hgrows : s.next head = s.food
  · rw [if_pos hgrows] at hfree
    have hnear : s.length ≤ s.length + 1 ∧ s.length ≤ s.length := by omega
    have hscore : s.score + 1 = s.length + 1 - 4 := by have := h.score; have := h.length; omega
    rw [decide_eq_true hgrows, advance_growing h.declared h.length h.playing]
    by_cases hlast : s.length = 127
    · rw [if_pos hlast]
      refine .ok (h.valid_moved hhead hboard hnear hfree rfl rfl ?_ ?_ rfl rfl nofun nofun)
      · exact (congrArg Nat.succ hlast).symm
      · exact hscore.trans (by rw [hlast]; rfl)
    · rw [if_neg hlast]
      have hgrown : ({ s with length := s.length + 1, score := s.score + 1 } : Snake).Declared := h.declared
      rcases placeFood_cases (hgrown.moved h.length.2 (s.next head)) h.length.2 draws with
        hdrawing | ⟨food, hfoodBoard, hfood, hplaced⟩
      · rw [hdrawing]
        exact .drawing
      · rw [hplaced]
        refine .ok (h.valid_moved hhead hboard hnear hfree rfl rfl rfl hscore rfl rfl (fun _ ↦ ?_)
          fun _ ↦ ⟨hfoodBoard, hfood⟩)
        change s.length + 1 < 128
        have := h.length
        omega
  · rw [if_neg hgrows] at hfree
    rw [decide_eq_false hgrows, advance_moving h.declared h.length]
    have hlength : s.length = s.length - 1 + 1 := by have := h.length; omega
    have hnear : s.length ≤ s.length - 1 + 1 ∧ s.length - 1 ≤ s.length := by omega
    refine .ok (h.valid_moved hhead hboard hnear hfree rfl rfl hlength h.score rfl rfl (fun _ ↦ h.length.2)
      fun _ ↦ ⟨h.food.1, ?_⟩)
    have hbody : (s.moved (s.length - 1) (s.next head)).body = s.next head :: s.cells.take (s.length - 1) := by
      rw [← h.declared.take_moved (by have := h.length; omega), ← hlength]
      rfl
    rw [hbody, List.mem_cons, not_or]
    refine ⟨fun heq ↦ hgrows heq.symm, fun hmem ↦ h.food.2 ?_⟩
    exact (List.take_subset_take_left _ (Nat.sub_le _ _)) hmem

/-! ## Frames -/

theorem drawCells_ok (hdeclared : s.Declared) (h : i + left ≤ 128) : ∃ calls, drawCells s left i = .ok calls := by
  induction left generalizing i with
  | zero => exact ⟨[], rfl⟩
  | succ left ih =>
    obtain ⟨calls, hcalls⟩ := ih (by omega : i + 1 + left ≤ 128)
    rw [drawCells, read_eq (by rw [hdeclared.1]; omega), ok_bind, read_eq (by rw [hdeclared.2]; omega), ok_bind,
      hcalls, ok_bind]
    exact ⟨_, rfl⟩

/-- Drawing leaves no array. -/
theorem draw_ok (hdeclared : s.Declared) (h : s.length ≤ 128) : ∃ calls, draw s = .ok calls := by
  obtain ⟨cells, hcells⟩ := drawCells_ok hdeclared (by omega : 0 + s.length ≤ 128)
  rw [draw, hcells, ok_bind]
  exact ⟨_, rfl⟩

/-- The cells that a game starts with. -/
theorem layOut_eq (hx : xs.length = 128) (hy : ys.length = 128) :
    layOut 4 0 xs ys = .ok ([15, 14, 13, 12] ++ xs.drop 4, [7, 7, 7, 7] ++ ys.drop 4) := by
  match xs, ys, hx, hy with
  | _ :: _ :: _ :: _ :: _, _ :: _ :: _ :: _ :: _, _, _ => rfl

/-- A game starts by the rules. -/
theorem reset_valid (hdeclared : s.Declared) (draws : List Draw) :
    Yields (fun t ↦ ({ t with playing := true, started := true } : Snake).Valid) (reset draws s) := by
  let start : Snake := { s with
    length := 4, score := 0, dx := 1, dy := 0, won := false
    xs := [15, 14, 13, 12] ++ s.xs.drop 4, ys := [7, 7, 7, 7] ++ s.ys.drop 4 }
  have hreset : reset draws s = placeFood draws start := by
    change (layOut 4 0 s.xs s.ys >>= fun cells ↦ placeFood draws { s with
      length := 4, score := 0, dx := 1, dy := 0, won := false, xs := cells.1, ys := cells.2 }) = _
    rw [layOut_eq hdeclared.1 hdeclared.2, ok_bind]
  have hstart : start.Declared := by
    constructor
    · change ([15, 14, 13, 12] ++ s.xs.drop 4).length = 128
      rw [List.length_append, List.length_drop, hdeclared.1]
      rfl
    · change ([7, 7, 7, 7] ++ s.ys.drop 4).length = 128
      rw [List.length_append, List.length_drop, hdeclared.2]
      rfl
  have hbody : start.body = [(15, 7), (14, 7), (13, 7), (12, 7)] := rfl
  rw [hreset]
  rcases placeFood_cases hstart (by decide : 4 ≤ 128) draws with hdrawing | ⟨food, hboard, hfood, hplaced⟩
  · rw [hdrawing]
    exact .drawing
  · rw [hplaced]
    refine .ok ?_
    have hfed : ({ start.feed food with playing := true, started := true } : Snake).body = start.body := rfl
    have hlength : 4 ≤ 4 ∧ 4 ≤ 128 := by decide
    have hroom : 4 < 128 := by decide
    refine ⟨hstart, hlength, rfl, ?_, ?_, ?_, rfl, fun _ ↦ hroom, fun _ ↦ ⟨hboard, hfood⟩, fun _ ↦ ?_⟩
    · rw [hfed, hbody]
      decide
    · rw [hfed, hbody]
      decide
    · rw [hfed, hbody]
      unfold Neighbours
      decide
    · rw [hfed, hbody]
      intro second hsecond
      obtain rfl := Option.some.inj hsecond
      rfl

/-- A game that is not in progress keeps to the rules whatever is known of the food. -/
theorem Snake.Valid.paused (h : s.Valid) (playing started running : Bool)
    (hplaying : playing = true → s.playing = true) :
    ({ s with playing := playing, started := started, running := running } : Snake).Valid :=
  ⟨h.declared, h.length, h.score, h.distinct, h.inside, h.connected, h.direction, fun hon ↦ h.room (hplaying hon),
    fun hon ↦ h.food (hplaying hon), fun hon ↦ h.heading (hplaying hon)⟩

/-- A frame keeps to the rules. -/
theorem frame_valid (h : s.Valid) (button : String) (draws : List Draw) :
    Yields (fun result ↦ result.1.Valid) (frame s button draws) := by
  obtain ⟨calls, hcalls⟩ := draw_ok h.declared h.length.2
  unfold frame
  by_cases hrunning : s.running = true
  swap
  · rw [if_pos (by rw [Bool.not_eq_true] at hrunning; rw [hrunning]; rfl)]
    exact .ok h
  rw [if_neg (by rw [hrunning]; decide)]
  by_cases hquit : button = "q" ∨ button = "escape"
  · rw [if_pos hquit]
    exact .ok (h.paused s.playing s.started false id)
  rw [if_neg hquit]
  by_cases hplaying : s.playing = true
  · rw [if_neg (by rw [hplaying]; decide)]
    refine ((h.aimed hplaying button).step_valid draws).bind fun t ht ↦ ?_
    obtain ⟨calls', hcalls'⟩ := draw_ok ht.declared ht.length.2
    rw [hcalls', ok_bind]
    exact .ok ht
  · rw [if_pos (by rw [Bool.not_eq_true] at hplaying; rw [hplaying]; rfl), hcalls, ok_bind]
    dsimp only
    by_cases henter : button = "enter"
    · rw [if_pos henter]
      exact (reset_valid h.declared draws).bind fun t ht ↦ .ok ht
    · rw [if_neg henter]
      exact .ok h

theorem frames_valid (h : s.Valid) (inputs : List Input) : Yields Snake.Valid (frames inputs s) := by
  induction inputs generalizing s with
  | nil => exact .ok h
  | cons input inputs ih => exact (frame_valid h input.button input.draws).bind fun result hresult ↦ ih hresult

theorem initial_declared : initial.Declared := by
  unfold Snake.Declared initial
  exact ⟨List.length_replicate, List.length_replicate⟩

theorem Snake.Declared.played (h : s.Declared) (draws : List Draw) (inputs : List Input) :
    Yields Snake.Valid (reset draws s >>= frames inputs) :=
  (reset_valid h draws).bind fun t ht ↦ frames_valid (ht.paused t.playing t.started t.running fun _ ↦ rfl) inputs

/-- No button turns the head to the cell behind it. -/
theorem Snake.Valid.not_back {head : Cell} (h : s.Valid) (hplaying : s.playing = true) (button : String)
    (hhead : s.body[0]? = some head) : s.body[1]? ≠ some ((turn button s).next head) := by
  have hbody : (turn button s).body = s.body := by
    obtain ⟨dx, dy, hturn, -⟩ := turn_cases button s
    rw [hturn]
    rfl
  rw [← hbody] at hhead ⊢
  exact (h.aimed hplaying button).ahead head hhead

/-- No run of the program leaves its arrays, and after each frame the rules hold: in a game in progress no button
turns the head to the cell behind it. -/
theorem play_rules (draws : List Draw) (inputs : List Input) :
    Yields (fun s ↦ s.Valid ∧ (s.playing = true → ∀ button, ∀ head ∈ s.body[0]?,
      s.body[1]? ≠ some ((turn button s).next head))) (play draws inputs) :=
  (initial_declared.played draws inputs).mono fun _ hs ↦
    ⟨hs, fun hplaying button _ hhead ↦ hs.not_back hplaying button hhead⟩

/-- A game in which the snake eats in its first frame. -/
example : (play [(⟨0, by decide⟩, ⟨0, by decide⟩)] [⟨"enter", [(⟨16, by decide⟩, ⟨7, by decide⟩)]⟩,
    ⟨"", [(⟨3, by decide⟩, ⟨3, by decide⟩)]⟩]).map (fun s ↦ (s.length, s.score, s.xs.take 5, s.foodx, s.playing)) =
      .ok (5, 1, [16, 15, 14, 13, 12], 3, true) := by decide +kernel

end JordyOS.Programs
