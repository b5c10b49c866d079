import Mathlib.Algebra.GroupWithZero.Nat
import Mathlib.Data.List.Induction
import Mathlib.Data.List.TakeDrop
import Mathlib.Order.Basic
import Mathlib.Tactic.Common

/-!
# Joined lists

Parts joined by single separators, and how many of them fit into a given room.
-/

namespace JordyOS.Machine

variable {α : Type} (sep : α)

/-- The parts in order, with a separator between neighbours. -/
def joined (parts : List (List α)) : List α := [sep].intercalate parts

@[simp]
theorem joined_nil : joined sep [] = [] := rfl

@[simp]
theorem joined_singleton (part : List α) : joined sep [part] = part := List.intercalate_singleton

theorem joined_concat {parts : List (List α)} (hparts : parts ≠ []) (part : List α) :
    joined sep (parts ++ [part]) = joined sep parts ++ sep :: part := by
  induction parts with
  | nil => exact absurd rfl hparts
  | cons first rest ih =>
    cases rest with
    | nil =>
      change joined sep [first, part] = joined sep [first] ++ sep :: part
      rw [joined_singleton, joined, List.intercalate_cons_cons, List.intercalate_singleton,
        List.append_assoc, List.singleton_append]
    | cons second rest =>
      have hrest := ih (List.cons_ne_nil second rest)
      unfold joined at hrest ⊢
      rw [List.cons_append, List.cons_append, List.intercalate_cons_cons, List.intercalate_cons_cons,
        ← List.cons_append, hrest, List.append_assoc, List.append_assoc, List.append_assoc]

theorem length_joined_concat {parts : List (List α)} (hparts : parts ≠ []) (part : List α) :
    (joined sep (parts ++ [part])).length = (joined sep parts).length + 1 + part.length := by
  rw [joined_concat sep hparts, List.length_append, List.length_cons]
  omega

/-- The length of a joined text, by the lengths of its parts. -/
theorem length_joined {parts : List (List α)} (hparts : parts ≠ []) :
    (joined sep parts).length + 1 = (parts.map List.length).sum + parts.length := by
  induction parts using List.reverseRecOn with
  | nil => exact absurd rfl hparts
  | append_singleton parts part ih =>
    rw [List.map_append, List.sum_append, List.length_append, List.map_singleton, List.sum_singleton,
      List.length_singleton]
    by_cases hempty : parts = []
    · rw [hempty, List.nil_append, joined_singleton, List.map_nil, List.sum_nil, List.length_nil]
      omega
    · have hrest := ih hempty
      rw [length_joined_concat sep hempty]
      omega

theorem length_joined_le_concat (parts : List (List α)) (part : List α) :
    (joined sep parts).length ≤ (joined sep (parts ++ [part])).length := by
  by_cases hparts : parts = []
  · rw [hparts]
    exact Nat.zero_le _
  · rw [length_joined_concat sep hparts]
    omega

/-- More parts take more room. -/
theorem length_joined_take_le (parts : List (List α)) {j k : ℕ} (h : j ≤ k) :
    (joined sep (parts.take j)).length ≤ (joined sep (parts.take k)).length := by
  induction h with
  | refl => exact Nat.le_refl _
  | @step k _ ih =>
    refine Nat.le_trans ih ?_
    by_cases hk : k < parts.length
    · rw [List.take_succ_eq_append_getElem hk]
      exact length_joined_le_concat sep _ _
    · have hall : parts.take k = parts.take (k + 1) := by
        rw [List.take_of_length_le (Nat.le_of_not_lt hk), List.take_of_length_le (by omega)]
      exact Nat.le_of_eq (congrArg (fun taken ↦ (joined sep taken).length) hall)

theorem length_joined_le {bound : ℕ} (parts : List (List α)) (h : ∀ part ∈ parts, part.length ≤ bound) :
    (joined sep parts).length ≤ parts.length * (bound + 1) := by
  induction parts using List.reverseRecOn with
  | nil => exact Nat.zero_le _
  | append_singleton parts part ih =>
    have hparts := ih fun other hother ↦ h other (List.mem_append_left _ hother)
    have hpart := h part (List.mem_append_right _ (List.mem_singleton_self part))
    rw [List.length_append, List.length_singleton, Nat.succ_mul]
    by_cases hempty : parts = []
    · rw [hempty, List.nil_append, joined_singleton]
      omega
    · rw [length_joined_concat sep hempty]
      omega

/-- The longest prefix of the parts whose joined text fits has `k` parts. -/
structure Longest (parts : List (List α)) (room k : ℕ) : Prop where
  le : k ≤ parts.length
  fits : (joined sep (parts.take k)).length ≤ room
  longest : ∀ j ≤ parts.length, (joined sep (parts.take j)).length ≤ room → j ≤ k

variable {sep} {parts : List (List α)} {room j k : ℕ}

/-- It is enough that one more part does not fit. -/
theorem Longest.of_next (hk : k ≤ parts.length) (hfits : (joined sep (parts.take k)).length ≤ room)
    (hnext : k < parts.length → room < (joined sep (parts.take (k + 1))).length) :
    Longest sep parts room k where
  le := hk
  fits := hfits
  longest := by
    intro j hj hjfits
    by_contra hlonger
    have hlt : k < j := Nat.lt_of_not_le hlonger
    have hmore := hnext (Nat.lt_of_lt_of_le hlt hj)
    have hle : (joined sep (parts.take (k + 1))).length ≤ (joined sep (parts.take j)).length :=
      length_joined_take_le sep parts hlt
    omega

theorem Longest.unique (hj : Longest sep parts room j) (hk : Longest sep parts room k) : j = k :=
  Nat.le_antisymm (hk.longest j hj.le hj.fits) (hj.longest k hk.le hk.fits)

end JordyOS.Machine
