import JordyOS.Ape.Format

/-!
# What a format expands to

A format is a sequence of characters and directives; it is complete if its last directive has a conversion.  Then
`vsnprintf` makes of it what it expands to, cut to the buffer; a format that is not complete is read past its end.
-/

namespace JordyOS.Ape

open Machine

/-! ## Formats -/

/-- A directive: whether its precision is an argument, whether its argument is wide, and its conversion. -/
structure Directive where
  starred : Bool
  wide : Bool
  conversion : UInt8

inductive Piece
  | char (c : UInt8)
  | directive (d : Directive)

/-- A `.` or a `.*` is passed. -/
def splitPrecision : List UInt8 → Bool × List UInt8
  | [] => (false, [])
  | [c] => (false, if c = dot then [] else [c])
  | c :: d :: format =>
    if c = dot then if d = '*'.toUInt8 then (true, format) else (false, d :: format) else (false, c :: d :: format)

/-- A length modifier is passed. -/
def splitWide : List UInt8 → Bool × List UInt8
  | [] => (false, [])
  | c :: format => if c = 'l'.toUInt8 ∨ c = 'z'.toUInt8 then (true, format) else (false, c :: format)

/-- The directive behind a `%`, and what is behind it. -/
def splitDirective (format : List UInt8) : Option (Directive × List UInt8) :=
  let (starred, format) := splitPrecision format
  let (wide, format) := splitWide format
  match format with
  | [] => none
  | c :: format => some (⟨starred, wide, c⟩, format)

theorem length_splitPrecision_le (format : List UInt8) : (splitPrecision format).2.length ≤ format.length := by
  unfold splitPrecision
  split
  · exact Nat.le_refl _
  · split <;> simp
  · split
    · split <;> simp
      omega
    · exact Nat.le_refl _

theorem length_splitWide_le (format : List UInt8) : (splitWide format).2.length ≤ format.length := by
  unfold splitWide
  split
  · exact Nat.le_refl _
  · split <;> simp

theorem length_splitDirective_lt {format rest : List UInt8} {d : Directive}
    (h : splitDirective format = some (d, rest)) : rest.length < format.length := by
  have hprecision := length_splitPrecision_le format
  have hwide := length_splitWide_le (splitPrecision format).2
  unfold splitDirective at h
  dsimp only at h
  split at h
  · cases h
  · rename_i c passed hpassed
    obtain ⟨-, rfl⟩ := Prod.mk.inj (Option.some.inj h)
    rw [hpassed, List.length_cons] at hwide
    omega

/-- The pieces of a format, if it is complete. -/
def pieces (format : List UInt8) : Option (List Piece) :=
  match format with
  | [] => some []
  | c :: format =>
    if c = percent then
      match _h : splitDirective format with
      | none => none
      | some (d, rest) => (pieces rest).map (.directive d :: ·)
    else (pieces format).map (.char c :: ·)
termination_by format.length
decreasing_by
  · exact Nat.lt_succ_of_lt (length_splitDirective_lt ‹_›)
  · exact Nat.lt_succ_self _

theorem pieces_nil : pieces [] = some [] := by
  rw [pieces]

theorem pieces_percent (format : List UInt8) : pieces (percent :: format) =
    (splitDirective format).bind fun split ↦ (pieces split.2).map (.directive split.1 :: ·) := by
  rw [pieces, if_pos rfl]
  split
  · rename_i hsplit
    rw [hsplit, Option.bind_none]
  · rename_i hsplit
    rw [hsplit, Option.bind_some]

/-! ## Expansions -/

/-- A precision that is negative or missing is no limit. -/
def limited (precision : Option ℤ) (text : List UInt8) : List UInt8 :=
  match precision with
  | none => text
  | some n => if n < 0 then text else text.take n.toNat

/-- The precision of a directive. -/
def Directive.precision (d : Directive) (args : List Arg) : Option (Option ℤ × List Arg) :=
  if d.starred then
    match args with
    | .int n :: args => some (some n.toInt, args)
    | _ => none
  else some (none, args)

/-- What a directive makes of its argument, if it has one that suits. -/
def Directive.converted (d : Directive) (precision : Option ℤ) (args : List Arg) : Option (List UInt8 × List Arg) :=
  if d.conversion = percent then some ([percent], args)
  else if d.conversion = 's'.toUInt8 then
    match args with
    | .string s :: args => some (limited precision (s.elim (bytesOf "(null)") CString.bytes), args)
    | _ => none
  else if d.conversion = 'c'.toUInt8 then
    match args with
    | .int n :: args => some ([UInt8.ofNat (n.toInt % 256).toNat], args)
    | _ => none
  else if d.conversion = 'd'.toUInt8 then
    match args, d.wide with
    | .int n :: args, false => some (bytesOf (toString n.toInt), args)
    | .long n :: args, true => some (bytesOf (toString n.toInt), args)
    | _, _ => none
  else if d.conversion = 'u'.toUInt8 then
    match args, d.wide with
    | .unsigned n :: args, false => some (bytesOf (toString n.toNat), args)
    | .unsignedLong n :: args, true => some (bytesOf (toString n.toNat), args)
    | _, _ => none
  else if d.conversion = 'g'.toUInt8 then
    match args with
    | .double text :: args => some (text, args)
    | _ => none
  else some (bytesOf "?", args)

/-- What the pieces expand to, if each conversion has its argument. -/
def expansion : List Piece → List Arg → Option (List UInt8)
  | [], _ => some []
  | .char c :: ps, args => (expansion ps args).map (c :: ·)
  | .directive d :: ps, args => do
    let (precision, args) ← d.precision args
    let (text, args) ← d.converted precision args
    let rest ← expansion ps args
    some (text ++ rest)

end JordyOS.Ape
