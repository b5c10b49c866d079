import JordyOS.Machine.Scan
import Mathlib.Data.List.TakeWhile
import Mathlib.Order.Basic

/-!
# Tokens

The non-empty pieces of a list between separators, and a buffer that holds the pieces as strings of their
own: each ends at a zero byte, and none reaches into the next.
-/

namespace JordyOS.Machine

/-! ## Pieces of a list -/

section Tokens

variable {α : Type} {p : α → Bool} {c : α} {word rest : List α}

/-- The non-empty pieces between separators, in order. -/
def tokens (p : α → Bool) (l : List α) : List (List α) := (l.splitOnP p).filter (· ≠ [])

@[simp]
theorem tokens_nil : tokens p [] = [] := by simp [tokens]

theorem tokens_cons (hc : p c = true) (rest : List α) : tokens p (c :: rest) = tokens p rest := by
  unfold tokens
  rw [List.splitOnP_cons_eq_if_modifyHead, if_pos hc, List.filter_cons_of_neg (by simp)]

theorem tokens_append {separators : List α} (h : ∀ c ∈ separators, p c = true) (rest : List α) :
    tokens p (separators ++ rest) = tokens p rest := by
  induction separators with
  | nil => rfl
  | cons c separators ih =>
    rw [List.cons_append, tokens_cons (h c List.mem_cons_self), ih fun d hd ↦ h d (List.mem_cons_of_mem c hd)]

theorem tokens_word (hword : word ≠ []) (h : ∀ c ∈ word, p c = false) : tokens p word = [word] := by
  unfold tokens
  rw [List.splitOnP_eq_singleton h, List.filter_cons_of_pos (by simpa using hword), List.filter_nil]

theorem tokens_word_append (hword : word ≠ []) (h : ∀ c ∈ word, p c = false) (hc : p c = true)
    (rest : List α) : tokens p (word ++ c :: rest) = word :: tokens p rest := by
  unfold tokens
  rw [List.splitOnP_append_cons_of_forall_mem h c hc, List.filter_cons_of_pos (by simpa using hword)]

/-- A piece consists of elements of the list. -/
theorem mem_of_mem_tokens {l : List α} (hword : word ∈ tokens p l) (hc : c ∈ word) : c ∈ l := by
  have hpiece := List.mem_of_mem_filter hword
  clear hword
  induction l generalizing word with
  | nil =>
    rw [List.splitOnP_nil, List.mem_singleton] at hpiece
    exact hpiece ▸ hc
  | cons x l ih =>
    rw [List.splitOnP_cons_eq_if_modifyHead] at hpiece
    by_cases hx : p x = true
    · rw [if_pos hx] at hpiece
      rcases List.mem_cons.mp hpiece with rfl | hlater
      · cases hc
      · exact List.mem_cons_of_mem x (ih hc hlater)
    · rw [if_neg hx] at hpiece
      obtain ⟨first, pieces, hsplit⟩ := List.exists_cons_of_ne_nil (List.splitOnP_ne_nil p l)
      rw [hsplit, List.modifyHead_cons] at hpiece
      rw [hsplit] at ih
      rcases List.mem_cons.mp hpiece with rfl | hlater
      · rcases List.mem_cons.mp hc with rfl | hc
        · exact List.mem_cons_self
        · exact List.mem_cons_of_mem x (ih hc List.mem_cons_self)
      · exact List.mem_cons_of_mem x (ih hc (List.mem_cons_of_mem first hlater))

/-- A list up to its first element with a property. -/
theorem exists_span (p : α → Bool) (l : List α) : ∃ front rest, l = front ++ rest ∧
    (∀ c ∈ front, p c = true) ∧ ∀ c ∈ rest.head?, p c = false := by
  refine ⟨l.takeWhile p, l.dropWhile p, List.takeWhile_append_dropWhile.symm, fun c hc ↦ ?_, fun c hc ↦ ?_⟩
  · exact List.mem_takeWhile_imp hc
  · have hnot := List.head?_dropWhile_not p l
    rw [Option.mem_def.mp hc] at hnot
    simpa using hnot

end Tokens

/-! ## Strings in a buffer -/

/-- The string at a pointer into the buffer. -/
def StringAt (buffer : List UInt8) (pointer : ℕ) (word : List UInt8) : Prop :=
  (∀ c ∈ word, c ≠ 0) ∧ ∃ rest, buffer.drop pointer = word ++ 0 :: rest

/-- Pointers to strings that follow each other. -/
inductive Layout (buffer : List UInt8) : (start : ℕ) → List ℕ → List (List UInt8) → Prop
  | nil (start : ℕ) : Layout buffer start [] []
  | cons {start pointer : ℕ} {word : List UInt8} {pointers : List ℕ} {words : List (List UInt8)}
      (hstart : start ≤ pointer) (hword : StringAt buffer pointer word)
      (hrest : Layout buffer (pointer + word.length + 1) pointers words) :
      Layout buffer start (pointer :: pointers) (word :: words)

variable {buffer : List UInt8} {start i position : ℕ} {pointers : List ℕ} {words : List (List UInt8)}
  {word : List UInt8}

/-- Each string is found behind its pointer, and the strings behind it follow. -/
theorem Layout.split (h : Layout buffer start pointers words) (hi : words[i]? = some word) :
    ∃ pointer, pointers[i]? = some pointer ∧ StringAt buffer pointer word ∧
      Layout buffer (pointer + word.length + 1) (pointers.drop (i + 1)) (words.drop (i + 1)) := by
  induction h generalizing i with
  | nil => cases hi
  | @cons start pointer first pointers words hstart hword hrest ih =>
    cases i with
    | zero =>
      obtain rfl : first = word := Option.some.inj hi
      exact ⟨pointer, rfl, hword, hrest⟩
    | succ i => exact ih hi

/-- A write in front of the strings leaves them alone. -/
theorem Layout.set (h : Layout buffer start pointers words) (hposition : position < start) (c : UInt8) :
    Layout (buffer.set position c) start pointers words := by
  induction h with
  | nil start => exact .nil start
  | cons hstart hword hrest ih =>
    have hbefore := Nat.lt_of_lt_of_le hposition hstart
    obtain ⟨hnonzero, rest, hdrop⟩ := hword
    refine .cons hstart ⟨hnonzero, rest, ?_⟩ (ih (by omega))
    rw [List.drop_set_of_lt hbefore, hdrop]

end JordyOS.Machine
