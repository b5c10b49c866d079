import JordyOS.Machine.Decimal
import JordyOS.Machine.Memory
import JordyOS.Machine.Scan
import Mathlib.Algebra.Group.Int.Defs
import Mathlib.Data.Int.Notation

/-!
# Formatted output

`vsnprintf` of `ape/platform.c`, with `emit`, `text` and `integer`.  The format is what is left of its buffer, so that
reading behind its terminator is seen as a fault; so is an argument that does not suit its conversion.  What `number`
makes of a floating-point argument is part of the argument.
-/

namespace JordyOS.Ape

open Machine

/-! ## Output -/

structure Output where
  data : Memory
  capacity : ℕ
  used : ℕ

def emit (o : Output) (c : UInt8) : Output :=
  { o with
    data := if (o.used + 1) % 2 ^ 64 < o.capacity then o.data.set o.used c else o.data
    used := (o.used + 1) % 2 ^ 64 }

/-- `text`; the precision is read as an unsigned number. -/
def emitText (o : Output) : List UInt8 → ℕ → Scan Output
  | [], _ => fault
  | c :: s, precision =>
    if c = 0 then .ok o
    else if precision = 0 then .ok o
    else emitText (emit o c) s ((precision + (2 ^ 32 - 1)) % 2 ^ 32)

/-- The digits in the buffer of `integer`, the last one written first, and how many more it holds. -/
def integerDigits : (room : ℕ) → ℕ → List UInt8 → Scan (List UInt8)
  | 0, _, _ => fault
  | room + 1, n, buffer =>
    let buffer := lastDigit n :: buffer
    if n / 10 = 0 then .ok buffer else integerDigits room (n / 10) buffer

def integer (o : Output) (n : ℕ) : Scan Output := do
  let buffer ← integerDigits 24 n []
  .ok (buffer.foldl emit o)

/-! ## Arguments -/

inductive Arg
  | int (n : Int32)
  | unsigned (n : UInt32)
  | long (n : Int64)
  | unsignedLong (n : UInt64)
  /-- A string, or null. -/
  | string (s : Option CString)
  /-- A floating-point number, with its text. -/
  | double (text : List UInt8)

/-- `va_arg(args,int)`. -/
def takeInt : List Arg → Scan (Int32 × List Arg)
  | .int n :: args => .ok (n, args)
  | _ => fault

/-- The signed argument of `%d`. -/
def takeSigned (wide : Bool) : List Arg → Scan (ℤ × List Arg)
  | .int n :: args => if wide then fault else .ok (n.toInt, args)
  | .long n :: args => if wide then .ok (n.toInt, args) else fault
  | _ => fault

/-- The unsigned argument of `%u`. -/
def takeUnsigned (wide : Bool) : List Arg → Scan (ℕ × List Arg)
  | .unsigned n :: args => if wide then fault else .ok (n.toNat, args)
  | .unsignedLong n :: args => if wide then .ok (n.toNat, args) else fault
  | _ => fault

def takeString : List Arg → Scan (Option CString × List Arg)
  | .string s :: args => .ok (s, args)
  | _ => fault

def takeDouble : List Arg → Scan (List UInt8 × List Arg)
  | .double text :: args => .ok (text, args)
  | _ => fault

/-! ## The scanner -/

def percent : UInt8 := 37

def nullText : List UInt8 := bytesOf "(null)" ++ [0]

/-- `(int)` of a machine word, as an unsigned number. -/
def unsignedOf (n : Int32) : ℕ := (n.toInt % 2 ^ 32).toNat

/-- The case of `d`. -/
def convertSigned (o : Output) (n : ℤ) : Scan Output :=
  let u := (n % 2 ^ 64).toNat
  if n < 0 then integer (emit o '-'.toUInt8) ((2 ^ 64 - u) % 2 ^ 64) else integer o u

/-- The `switch`. -/
def convert (conversion : UInt8) (wide : Bool) (precision : ℕ) (args : List Arg) (o : Output) :
    Scan (List Arg × Output) :=
  if conversion = percent then .ok (args, emit o percent)
  else if conversion = 's'.toUInt8 then do
    let (s, args) ← takeString args
    let o ← emitText o (s.elim nullText CString.buffer) precision
    .ok (args, o)
  else if conversion = 'c'.toUInt8 then do
    let (n, args) ← takeInt args
    .ok (args, emit o (UInt8.ofNat (unsignedOf n)))
  else if conversion = 'd'.toUInt8 then do
    let (n, args) ← takeSigned wide args
    let o ← convertSigned o n
    .ok (args, o)
  else if conversion = 'u'.toUInt8 then do
    let (n, args) ← takeUnsigned wide args
    let o ← integer o n
    .ok (args, o)
  else if conversion = 'g'.toUInt8 then do
    let (text, args) ← takeDouble args
    .ok (args, text.foldl emit o)
  else .ok (args, emit o '?'.toUInt8)

/-- The precision, and what is left of the format behind it. -/
def scanPrecision (format : List UInt8) (args : List Arg) : Scan (ℕ × List UInt8 × List Arg) := do
  let c ← peek format
  if c = dot then
    let c ← peek format.tail
    if c = '*'.toUInt8 then
      let (n, args) ← takeInt args
      .ok (unsignedOf n, format.tail.tail, args)
    else .ok (2 ^ 32 - 1, format.tail, args)
  else .ok (2 ^ 32 - 1, format, args)

/-- What is behind a `%`. -/
def scanDirective (format : List UInt8) (args : List Arg) (o : Output) : Scan (List UInt8 × List Arg × Output) := do
  let (precision, format, args) ← scanPrecision format args
  let c ← peek format
  let wide : Bool := c = 'l'.toUInt8 ∨ c = 'z'.toUInt8
  let format := if wide then format.tail else format
  let conversion ← peek format
  let (args, o) ← convert conversion wide precision args o
  .ok (format.tail, args, o)

/-- The loop; each round passes a byte at least. -/
def scanFormat : (rounds : ℕ) → List UInt8 → List Arg → Output → Scan Output
  | 0, _, _, _ => fault
  | rounds + 1, format, args, o => do
    let c ← peek format
    if c = 0 then .ok o
    else if c ≠ percent then scanFormat rounds format.tail args (emit o c)
    else
      let (format, args, o) ← scanDirective format.tail args o
      scanFormat rounds format args o

/-- The result and the buffer. -/
def vsnprintf (buffer : Memory) (size : ℕ) (format : List UInt8) (args : List Arg) : Scan (ℤ × Memory) := do
  let o ← scanFormat format.length format args ⟨buffer, size, 0⟩
  let data := if size ≠ 0 then o.data.set (if o.used < size then o.used else size - 1) 0 else o.data
  .ok (Int.bmod o.used (2 ^ 32), data)

end JordyOS.Ape
