import Mathlib.Data.List.Basic
import Mathlib.Data.List.TakeWhile
import Mathlib.Tactic.Common

/-!
# A list with a cursor

What an open file is: its contents and a place in them.  Writing replaces what is behind the cursor and makes the
list longer where it ends; reading moves the cursor over what was read.
-/

namespace JordyOS.Machine

/-- A list and a place in it. -/
@[ext]
structure Cursor (α : Type*) where
  items : List α
  pos : ℕ
  inside : pos ≤ items.length

namespace Cursor

variable {α : Type*}

def start (items : List α) : Cursor α := ⟨items, 0, Nat.zero_le _⟩

/-- What is behind the cursor. -/
def rest (v : Cursor α) : List α := v.items.drop v.pos

/-- The items are put behind the cursor, over what is there. -/
def write (v : Cursor α) (new : List α) : Cursor α where
  items := v.items.take v.pos ++ new ++ v.items.drop (v.pos + new.length)
  pos := v.pos + new.length
  inside := by
    have hinside := v.inside
    rw [List.length_append, List.length_append, List.length_take, List.length_drop]
    omega

/-- The cursor is moved over some of the items behind it. -/
def skip (v : Cursor α) (n : ℕ) : Cursor α where
  items := v.items
  pos := v.pos + min n v.rest.length
  inside := by
    have hinside := v.inside
    rw [rest, List.length_drop]
    omega

/-- The cursor is put to a place, if there is such a place. -/
def seek (v : Cursor α) (target : ℤ) : Option (Cursor α) :=
  if h : 0 ≤ target ∧ target ≤ v.items.length then some ⟨v.items, target.toNat, by omega⟩ else none

variable {v : Cursor α} {new : List α} {i n : ℕ} {target : ℤ}

@[simp]
theorem length_rest (v : Cursor α) : v.rest.length = v.items.length - v.pos := List.length_drop

/-- The items in front of the cursor stay, as do those behind what was written. -/
theorem getElem?_write (v : Cursor α) (new : List α) (i : ℕ) :
    (v.write new).items[i]? = if v.pos ≤ i ∧ i < v.pos + new.length then new[i - v.pos]? else v.items[i]? := by
  have hinside := v.inside
  have hfront : (v.items.take v.pos).length = v.pos := by
    rw [List.length_take]
    omega
  have hitems : (v.write new).items = v.items.take v.pos ++ (new ++ v.items.drop (v.pos + new.length)) :=
    List.append_assoc _ _ _
  rw [hitems]
  by_cases hbelow : i < v.pos
  · rw [List.getElem?_append_left (by omega), List.getElem?_take_of_lt hbelow, if_neg (by omega)]
  rw [List.getElem?_append_right (by omega), hfront]
  by_cases hwritten : i < v.pos + new.length
  · rw [List.getElem?_append_left (by omega), if_pos (by omega)]
  · rw [List.getElem?_append_right (by omega), List.getElem?_drop, if_neg (by omega)]
    congr 1
    omega

theorem skip_of_le (h : n ≤ v.rest.length) : (v.skip n).pos = v.pos + n :=
  congrArg (v.pos + ·) (Nat.min_eq_left h)

theorem seek_of_inside (h : 0 ≤ target ∧ target ≤ v.items.length) :
    v.seek target = some ⟨v.items, target.toNat, by omega⟩ := dif_pos h

theorem seek_of_outside (h : ¬ (0 ≤ target ∧ target ≤ v.items.length)) : v.seek target = none := dif_neg h

/-! ## Lines -/

/-- The first line, with the separator if it is there. -/
def firstLine [DecidableEq α] (separator : α) (items : List α) : List α :=
  items.takeWhile (· ≠ separator) ++ (items.dropWhile (· ≠ separator)).take 1

variable [DecidableEq α] {separator a : α} {items : List α}

@[simp]
theorem firstLine_nil : firstLine separator [] = [] := rfl

theorem firstLine_cons : firstLine separator (a :: items) =
    if a = separator then [a] else a :: firstLine separator items := by
  by_cases h : a = separator
  · rw [if_pos h, firstLine, List.takeWhile_cons_of_neg (by simpa using h),
      List.dropWhile_cons_of_neg (by simpa using h)]
    rfl
  · rw [if_neg h, firstLine, List.takeWhile_cons_of_pos (by simpa using h),
      List.dropWhile_cons_of_pos (by simpa using h)]
    rfl

theorem length_firstLine_le (separator : α) (items : List α) : (firstLine separator items).length ≤ items.length := by
  induction items with
  | nil => exact Nat.le_refl _
  | cons a items ih =>
    rw [firstLine_cons]
    split
    · exact Nat.succ_le_succ (Nat.zero_le _)
    · exact Nat.succ_le_succ ih

end Cursor

end JordyOS.Machine
