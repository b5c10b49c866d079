import Mathlib.Data.Finset.Card
import Mathlib.Data.List.Dedup
import Mathlib.Data.List.DropRight

/-!
# Recency

The distinct elements of a list in the order of their last occurrences, and the last few of them: a list of
bounded length that is kept up to date element by element.
-/

namespace JordyOS.Machine

variable {α : Type} [DecidableEq α] {l a b : List α} {p : α} {k : ℕ}

/-! ## Ends of lists -/

omit [DecidableEq α] in
theorem rtake_append_of_length (l : List α) {back : List α} (h : back.length = k) : (l ++ back).rtake k = back := by
  rw [List.rtake, List.length_append, h, Nat.add_sub_cancel, List.drop_left]

omit [DecidableEq α] in
theorem rtake_of_length_le (h : l.length ≤ k) : l.rtake k = l := by
  rw [List.rtake, Nat.sub_eq_zero_of_le h, List.drop_zero]

omit [DecidableEq α] in
theorem length_rtake (l : List α) (k : ℕ) : (l.rtake k).length = min k l.length := by
  rw [List.rtake, List.length_drop]
  omega

omit [DecidableEq α] in
/-- A list in front of its end. -/
theorem exists_append_rtake (l : List α) (k : ℕ) : ∃ front, l = front ++ l.rtake k ∧
    (front = [] ∨ (l.rtake k).length = k) := by
  refine ⟨l.take (l.length - k), (List.take_append_drop _ l).symm, ?_⟩
  rw [length_rtake]
  rcases Nat.le_total l.length k with hle | hle
  · left
    rw [Nat.sub_eq_zero_of_le hle, List.take_zero]
  · right
    exact Nat.min_eq_left hle

/-! ## Last occurrences -/

theorem dedup_concat (l : List α) (p : α) : (l ++ [p]).dedup = l.dedup.erase p ++ [p] := by
  induction l with
  | nil => simp
  | cons x l ih =>
    rw [List.cons_append]
    by_cases hx : x ∈ l
    · rw [List.dedup_cons_of_mem (List.mem_append_left _ hx), List.dedup_cons_of_mem hx, ih]
    · by_cases heq : x = p
      · subst heq
        rw [List.dedup_cons_of_mem (List.mem_append_right _ List.mem_cons_self), List.dedup_cons_of_notMem hx, ih,
          List.erase_cons_head, List.erase_of_not_mem fun h ↦ hx (List.mem_dedup.mp h)]
      · have hnot : x ∉ l ++ [p] := by
          simp [hx, heq]
        rw [List.dedup_cons_of_notMem hnot, List.dedup_cons_of_notMem hx, ih,
          List.erase_cons_tail (by simpa using heq), List.cons_append]

omit [DecidableEq α] in
/-- Behind its last occurrence an element does not occur. -/
theorem exists_last_occurrence (h : p ∈ l) : ∃ a b, l = a ++ p :: b ∧ p ∉ b := by
  obtain ⟨b, a, heq, hb⟩ := List.eq_append_cons_of_mem (List.mem_reverse.mpr h)
  refine ⟨a.reverse, b.reverse, ?_, by simpa using hb⟩
  rw [← List.reverse_reverse l, heq]
  simp

/-- An element is among the last `k` when fewer than `k` elements follow its last occurrence. -/
theorem mem_rtake_dedup (hb : p ∉ b) (k : ℕ) :
    p ∈ (a ++ p :: b).dedup.rtake k ↔ b.toFinset.card < k := by
  have hsplit : ∃ front, (a ++ p :: b).dedup = front ++ p :: b.dedup := by
    rw [List.dedup_append, List.dedup_cons_of_notMem hb]
    obtain ⟨front, hfront⟩ := List.suffix_union_right a (p :: b.dedup)
    exact ⟨front, hfront.symm⟩
  obtain ⟨front, hfront⟩ := hsplit
  have hnodup := List.nodup_dedup (a ++ p :: b)
  rw [hfront, List.nodup_append] at hnodup
  have hbehind : p ∉ b.dedup := fun h ↦ hb (List.mem_dedup.mp h)
  rw [List.card_toFinset, hfront, List.rtake, List.length_append, List.length_cons]
  constructor
  · intro hmem
    by_contra hmany
    have hdrop : (front ++ p :: b.dedup).drop (front.length + (b.dedup.length + 1) - k) =
        (b.dedup).drop (b.dedup.length - k) := by
      have hpast : front.length + (b.dedup.length + 1) - k = front.length + 1 + (b.dedup.length - k) := by omega
      rw [hpast, ← List.drop_drop, List.drop_append, List.drop_of_length_le (Nat.le_succ _), Nat.add_sub_cancel_left]
      rfl
    rw [hdrop] at hmem
    exact hbehind (List.mem_of_mem_drop hmem)
  · intro hfew
    rw [List.drop_append]
    refine List.mem_append_right _ ?_
    rw [Nat.sub_eq_zero_of_le (by omega : front.length + (b.dedup.length + 1) - k ≤ front.length), List.drop_zero]
    exact List.mem_cons_self

/-! ## One more element -/

/-- A recent element moves to the end. -/
theorem rtake_dedup_of_mem (h : p ∈ l.dedup.rtake (k + 1)) :
    (l ++ [p]).dedup.rtake (k + 1) = (l.dedup.rtake (k + 1)).erase p ++ [p] := by
  obtain ⟨front, hsplit, hfront⟩ := exists_append_rtake l.dedup (k + 1)
  have hnodup := List.nodup_dedup l
  rw [hsplit, List.nodup_append] at hnodup
  have hnot : p ∉ front := fun hmem ↦ hnodup.2.2 p hmem p h rfl
  have hlength := List.length_erase_of_mem h
  rw [dedup_concat, List.rtake_concat_succ]
  congr 1
  rcases hfront with rfl | hfull
  · rw [List.nil_append] at hsplit
    rw [← hsplit] at hlength ⊢
    have hle := length_rtake l.dedup (k + 1)
    rw [← hsplit] at hle
    exact rtake_of_length_le (by omega)
  · have herase : l.dedup.erase p = front ++ (l.dedup.rtake (k + 1)).erase p := by
      conv_lhs => rw [hsplit]
      exact List.erase_append_right _ hnot
    rw [herase]
    exact rtake_append_of_length front (by omega)

/-- Another element pushes out the oldest one, if there is no room. -/
theorem rtake_dedup_of_not_mem (h : p ∉ l.dedup.rtake (k + 1)) :
    (l ++ [p]).dedup.rtake (k + 1) = (if (l.dedup.rtake (k + 1)).length = k + 1
      then (l.dedup.rtake (k + 1)).tail else l.dedup.rtake (k + 1)) ++ [p] := by
  obtain ⟨front, hsplit, hfront⟩ := exists_append_rtake l.dedup (k + 1)
  rw [dedup_concat, List.rtake_concat_succ]
  congr 1
  have hback (x : List α) (hfull : (l.dedup.rtake (k + 1)).length = k + 1) :
      (x ++ l.dedup.rtake (k + 1)).rtake k = (l.dedup.rtake (k + 1)).tail := by
    obtain ⟨oldest, rest, hrest⟩ := List.exists_cons_of_length_eq_add_one hfull
    rw [hrest, List.length_cons] at hfull
    rw [hrest, List.tail_cons, List.append_cons]
    exact rtake_append_of_length _ (by omega)
  by_cases hfull : (l.dedup.rtake (k + 1)).length = k + 1
  · rw [if_pos hfull]
    by_cases hmem : p ∈ front
    · have herase : l.dedup.erase p = front.erase p ++ l.dedup.rtake (k + 1) := by
        conv_lhs => rw [hsplit]
        exact List.erase_append_left _ hmem
      rw [herase, hback _ hfull]
    · have herase : l.dedup.erase p = front ++ l.dedup.rtake (k + 1) := by
        rw [List.erase_of_not_mem, ← hsplit]
        rw [hsplit, List.mem_append]
        exact fun hmem' ↦ hmem'.elim hmem h
      rw [herase, hback _ hfull]
  · obtain rfl := hfront.resolve_right hfull
    rw [List.nil_append] at hsplit
    have hlength := length_rtake l.dedup (k + 1)
    rw [← hsplit] at h hfull hlength ⊢
    rw [if_neg hfull, List.erase_of_not_mem h, rtake_of_length_le (by omega)]

end JordyOS.Machine
