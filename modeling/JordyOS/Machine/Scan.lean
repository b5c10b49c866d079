import JordyOS.Machine.Outcome
import Mathlib.Data.Nat.Notation
import Mathlib.Data.List.Basic
import Mathlib.Tactic.Common

/-!
# Scanning text

Hand-written scanners over strings that end at a zero byte.  A pointer into a buffer is what is left of
the buffer from there on, so that a read behind the end of the buffer is seen as a fault; an answer
`false` of the scanner is a rejection.
-/

namespace JordyOS.Machine

/-- How a scan ends without a value. -/
inductive Stop
  /-- An access outside a buffer. -/
  | fault
  /-- The answer `false`. -/
  | reject
  deriving DecidableEq, Repr

abbrev Scan := Except Stop

def fault {α : Type} : Scan α := .error .fault

def reject {α : Type} : Scan α := .error .reject

/-- `*text`. -/
def peek : List UInt8 → Scan UInt8
  | [] => fault
  | c :: _ => .ok c

/-- `buffer[i] = c`. -/
def poke (buffer : List UInt8) (i : ℕ) (c : UInt8) : Scan (List UInt8) :=
  if i < buffer.length then .ok (buffer.set i c) else fault

/-- `while (p(*text)) text++`: the number of bytes passed. -/
def skip (p : UInt8 → Bool) : List UInt8 → Scan ℕ
  | [] => fault
  | c :: text =>
    if p c then do
      let passed ← skip p text
      .ok (passed + 1)
    else .ok 0

/-- `!strcmp(text, literal)`. -/
def sameString : (text literal : List UInt8) → Scan Bool
  | [], _ | _, [] => fault
  | a :: text, b :: literal => if a ≠ 0 ∧ a = b then sameString text literal else .ok (a == b)

/-- `p && q`: the second condition is evaluated when the first holds. -/
def andThen (p : Bool) (q : Scan Bool) : Scan Bool := if p then q else .ok false

/-- The answer `false` of a scan is a value for the caller. -/
def attempt {α : Type} : Scan α → Scan (Option α)
  | .ok a => .ok (some a)
  | .error .reject => .ok none
  | .error .fault => fault

/-- The bytes of a list are looked at, and not all bytes there are. -/
instance (priority := high) decidableForallMem (p : UInt8 → Prop) [DecidablePred p] (bytes : List UInt8) :
    Decidable (∀ c ∈ bytes, p c) := List.decidableBAll p bytes

/-- The contents of a string. -/
structure CString where
  bytes : List UInt8
  nonzero : ∀ c ∈ bytes, c ≠ 0

/-- The bytes a string occupies. -/
def CString.buffer (s : CString) : List UInt8 := s.bytes ++ [0]

/-- What is left of a buffer ends with the only zero byte. -/
def Terminated (text : List UInt8) : Prop := ∃ s : CString, text = s.buffer

def dot : UInt8 := '.'.toUInt8

def slash : UInt8 := '/'.toUInt8

variable {text : List UInt8} {c : UInt8}

theorem CString.terminated (s : CString) : Terminated s.buffer := ⟨s, rfl⟩

theorem Terminated.ne_nil (h : Terminated text) : text ≠ [] := by
  obtain ⟨s, rfl⟩ := h
  exact List.append_ne_nil_of_right_ne_nil _ (List.cons_ne_nil 0 [])

/-- Behind a byte that is not the terminator the text goes on. -/
theorem Terminated.of_cons (h : Terminated (c :: text)) (hc : c ≠ 0) : Terminated text := by
  obtain ⟨⟨bytes, hnonzero⟩, heq⟩ := h
  cases bytes with
  | nil => exact absurd (List.cons.inj heq).1 hc
  | cons d bytes =>
    exact ⟨⟨bytes, fun x hx ↦ hnonzero x (List.mem_cons_of_mem d hx)⟩, (List.cons.inj heq).2⟩

/-- The terminator is the end of the buffer. -/
theorem Terminated.of_zero (h : Terminated (0 :: text)) : text = [] := by
  obtain ⟨⟨bytes, hnonzero⟩, heq⟩ := h
  cases bytes with
  | nil => exact (List.cons.inj heq).2
  | cons d bytes => exact absurd (List.cons.inj heq).1.symm (hnonzero d List.mem_cons_self)

/-! ## Runs of bytes -/

variable {p : UInt8 → Bool} {passed rest word literal : List UInt8}

theorem skip_append (hpassed : ∀ c ∈ passed, p c = true) (hc : p c = false) (rest : List UInt8) :
    skip p (passed ++ c :: rest) = .ok passed.length := by
  induction passed with
  | nil =>
    rw [List.nil_append, skip, hc]
    rfl
  | cons d passed ih =>
    rw [List.cons_append, skip, if_pos (hpassed d List.mem_cons_self),
      ih fun x hx ↦ hpassed x (List.mem_cons_of_mem d hx)]
    rfl

/-- A byte of the text is overwritten: what stands in front of it and behind it stays. -/
theorem poke_drop {front behind : List UInt8} {position : ℕ} {b : UInt8}
    (h : text.drop position = front ++ b :: behind) (c : UInt8) :
    poke text (position + front.length) c = .ok (text.set (position + front.length) c) ∧
      (text.set (position + front.length) c).drop position = front ++ c :: behind ∧
      (text.set (position + front.length) c).drop (position + front.length + 1) = behind := by
  have hat : text.drop (position + front.length) = b :: behind := by
    rw [← List.drop_drop, h, List.drop_left]
  have hinside : position + front.length < text.length := by
    have hlength := congrArg List.length hat
    rw [List.length_drop, List.length_cons] at hlength
    omega
  refine ⟨if_pos hinside, ?_, ?_⟩
  · rw [List.drop_set, if_neg (by omega), h, Nat.add_sub_cancel_left, List.set_append_right _ _ (Nat.le_refl _),
      Nat.sub_self, List.set_cons_zero]
  · have hbehind : text.drop (position + front.length + 1) = behind := by
      rw [← List.drop_drop, hat, List.drop_succ_cons, List.drop_zero]
    rw [List.drop_set_of_lt (Nat.lt_succ_self _)]
    exact hbehind

/-- Strings are compared as lists of bytes. -/
theorem sameString_eq (hword : ∀ c ∈ word, c ≠ 0) (hliteral : ∀ c ∈ literal, c ≠ 0) (rest more : List UInt8) :
    sameString (word ++ 0 :: rest) (literal ++ 0 :: more) = .ok (decide (word = literal)) := by
  induction word generalizing literal with
  | nil =>
    cases literal with
    | nil => rfl
    | cons b literal =>
      have hb : (0 : UInt8) ≠ b := (hliteral b List.mem_cons_self).symm
      rw [List.nil_append, List.cons_append, sameString, if_neg fun h ↦ h.1 rfl,
        decide_eq_false (List.cons_ne_nil b literal).symm, beq_eq_false_iff_ne.mpr hb]
  | cons a word ih =>
    have ha : a ≠ 0 := hword a List.mem_cons_self
    cases literal with
    | nil =>
      rw [List.nil_append, List.cons_append, sameString, if_neg fun h ↦ ha h.2,
        decide_eq_false (List.cons_ne_nil a word), beq_eq_false_iff_ne.mpr ha]
    | cons b literal =>
      rw [List.cons_append, List.cons_append, sameString]
      by_cases hab : a = b
      · rw [if_pos ⟨ha, hab⟩, ih (fun x hx ↦ hword x (List.mem_cons_of_mem a hx))
          fun x hx ↦ hliteral x (List.mem_cons_of_mem b hx)]
        simp [hab]
      · rw [if_neg fun h ↦ hab h.2, beq_eq_false_iff_ne.mpr hab,
          decide_eq_false fun h ↦ hab (List.cons.inj h).1]

end JordyOS.Machine
