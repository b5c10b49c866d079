import Mathlib.Data.List.Basic
import Mathlib.Logic.Function.Basic
import Mathlib.Tactic.Common

/-!
# Filling an array

An array written from one position on, slot by slot, as `array[used++] = value` does.  What a loop
leaves there is read off the list of the values it chose to write.
-/

namespace JordyOS.Machine

/-- An array and the number of slots in use. -/
structure Fill (α : Type*) where
  slots : ℕ → α
  used : ℕ

namespace Fill

variable {α ι : Type*}

/-- `array[used++] = value`. -/
def push (a : Fill α) (value : α) : Fill α where
  slots := Function.update a.slots a.used value
  used := a.used + 1

@[simp]
theorem push_used (a : Fill α) (value : α) : (a.push value).used = a.used + 1 := rfl

theorem push_slots_self (a : Fill α) (value : α) : (a.push value).slots a.used = value :=
  Function.update_self _ _ _

theorem push_slots_of_ne (a : Fill α) (value : α) {k : ℕ} (h : k ≠ a.used) :
    (a.push value).slots k = a.slots k :=
  Function.update_of_ne h _ _

/-- A loop that writes the values of some of its rounds. -/
def collect (p : ι → Bool) (f : ι → α) (a : Fill α) (l : List ι) : Fill α :=
  l.foldl (fun a i ↦ if p i then a.push (f i) else a) a

variable (p : ι → Bool) (f : ι → α)

@[simp]
theorem collect_nil (a : Fill α) : collect p f a [] = a := rfl

theorem collect_cons (a : Fill α) (i : ι) (l : List ι) :
    collect p f a (i :: l) = collect p f (if p i then a.push (f i) else a) l := rfl

theorem collect_used (a : Fill α) (l : List ι) :
    (collect p f a l).used = a.used + (l.filter p).length := by
  induction l generalizing a with
  | nil => rfl
  | cons i l ih =>
    rw [collect_cons, ih]
    cases hi : p i with
    | true =>
      rw [List.filter_cons_of_pos hi, if_pos rfl, push_used, List.length_cons]
      omega
    | false => rw [List.filter_cons_of_neg (Bool.eq_false_iff.mp hi), if_neg Bool.false_ne_true]

/-- The slots that were in use stay as they are. -/
theorem collect_slots_of_lt (a : Fill α) (l : List ι) {k : ℕ} (hk : k < a.used) :
    (collect p f a l).slots k = a.slots k := by
  induction l generalizing a with
  | nil => rfl
  | cons i l ih =>
    rw [collect_cons]
    cases hi : p i with
    | true =>
      rw [if_pos rfl, ih (a.push (f i)) (by rw [push_used]; omega),
        push_slots_of_ne a (f i) (Nat.ne_of_lt hk)]
    | false => rw [if_neg Bool.false_ne_true, ih a hk]

/-- The slots that are not in use afterwards stay as they are. -/
theorem collect_slots_of_ge (a : Fill α) (l : List ι) {k : ℕ} (hk : (collect p f a l).used ≤ k) :
    (collect p f a l).slots k = a.slots k := by
  induction l generalizing a with
  | nil => rfl
  | cons i l ih =>
    rw [collect_cons] at hk ⊢
    rw [ih _ hk]
    cases hi : p i with
    | true =>
      rw [hi, if_pos rfl, collect_used, push_used] at hk
      exact push_slots_of_ne a (f i) (by omega)
    | false => rfl

/-- The new slots hold the chosen values in order. -/
theorem collect_slots (a : Fill α) (l : List ι) {k : ℕ} (hk : k < (l.filter p).length) :
    (collect p f a l).slots (a.used + k) = f ((l.filter p)[k]) := by
  induction l generalizing a k with
  | nil => exact absurd hk (Nat.not_lt_zero k)
  | cons i l ih =>
    rw [collect_cons]
    cases hi : p i with
    | true =>
      have hfilter : (i :: l).filter p = i :: l.filter p := List.filter_cons_of_pos hi
      simp only [hfilter, List.length_cons] at hk ⊢
      cases k with
      | zero =>
        rw [if_pos trivial, collect_slots_of_lt p f (a.push (f i)) l (by rw [push_used]; omega)]
        exact push_slots_self a (f i)
      | succ k =>
        have hplace : a.used + (k + 1) = (a.push (f i)).used + k := by
          rw [push_used]
          omega
        rw [if_pos trivial, hplace, ih (a.push (f i)) (by omega), List.getElem_cons_succ]
    | false =>
      have hfilter : (i :: l).filter p = l.filter p :=
        List.filter_cons_of_neg (Bool.eq_false_iff.mp hi)
      simp only [hfilter] at hk ⊢
      rw [if_neg Bool.false_ne_true]
      exact ih a hk

/-- Two loops one after the other write the chosen values one after the other. -/
theorem collect_collect_slots (q : ι → Bool) (a : Fill α) (l m : List ι) {k : ℕ}
    (hk : k < (l.filter p ++ m.filter q).length) :
    (collect q f (collect p f a l) m).slots (a.used + k) = f ((l.filter p ++ m.filter q)[k]) := by
  by_cases hfirst : k < (l.filter p).length
  · rw [collect_slots_of_lt q f _ m (by rw [collect_used]; omega), collect_slots p f a l hfirst,
      List.getElem_append_left hfirst]
  · obtain ⟨j, rfl⟩ := Nat.exists_eq_add_of_le (Nat.le_of_not_lt hfirst)
    have hj : j < (m.filter q).length := by
      rw [List.length_append] at hk
      omega
    have hslot := collect_slots q f (collect p f a l) m hj
    rw [collect_used, Nat.add_assoc] at hslot
    rw [hslot, List.getElem_append_right (Nat.le_add_right _ _)]
    congr 2
    omega

end Fill

end JordyOS.Machine
