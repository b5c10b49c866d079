import JordyOS.Machine.Program
import Mathlib.Algebra.GroupWithZero.Nat
import Mathlib.Data.Fintype.Basic
import Mathlib.Logic.Function.Basic

/-!
# The eBPF virtual machine

`bpf_vm.c`: the validator and the interpreter.  Every array access of the C code is an access of a
bounded object here, and one outside its object stops the machine with `Halt.outOfBounds`; every
`return` of the interpreter is a constructor of `Halt`.  A pointer is an object and an offset into it.
-/

namespace JordyOS.Bpf

open Machine

/-! ## Instructions and environment -/

/-- One instruction slot: `BpfInsn`. -/
structure BpfInsn where
  code : UInt8
  regs : UInt8
  offset : Int16
  immediate : Int32
  deriving DecidableEq, Repr

namespace BpfInsn

def dst (i : BpfInsn) : ℕ := (i.regs &&& 15).toNat

def src (i : BpfInsn) : ℕ := (i.regs >>> 4).toNat

def cls (i : BpfInsn) : UInt8 := i.code &&& 7

def op (i : BpfInsn) : UInt8 := i.code &&& 0xf0

/-- The second operand is a register, not the immediate. -/
def fromRegister (i : BpfInsn) : Bool := i.code &&& 8 != 0

/-- `(uint64_t)(int64_t)i.immediate`. -/
def signExtended (i : BpfInsn) : UInt64 := i.immediate.toInt64.toUInt64

end BpfInsn

def bpfMaxInsns : ℕ := 4096
def bpfFuel : ℕ := 65536
abbrev bpfMaps : ℕ := 7

instance neZero_bpfMaps : NeZero bpfMaps := ⟨by decide⟩

def bpfCtx : UInt64 := 0x10000000
def bpfData : UInt64 := 0x20000000
def bpfStack : UInt64 := 0x30000000
def bpfValues : UInt64 := 0x40000000
def bpfHandles : UInt64 := 0x80000000

def bpfArray : UInt32 := 2
def bpfPercpuArray : UInt32 := 6
def bpfLpm : UInt32 := 11
def bpfMapArray : UInt32 := 12

/-- A map.  A null pointer is `none`. -/
structure BpfMap where
  type : UInt32
  keySize : UInt32
  valueSize : UInt32
  capacity : UInt32
  entries : UInt32
  values : Option (List UInt8)
  keys : Option (List UInt8)
  writable : Bool
  deriving DecidableEq

structure BpfEnvironment where
  context : List UInt8
  packet : List UInt8
  contextSize : UInt32
  packetSize : UInt32
  maps : Fin bpfMaps → BpfMap

/-! ## Validation -/

/-- A branch goes to an instruction that is not the second half of a wide load. -/
def target (code : List BpfInsn) (pc : ℕ) (offset : Int16) : Bool :=
  let next : ℤ := pc + 1 + offset.toInt
  decide (0 ≤ next) && decide (next < code.length) && code[next.toNat]?.any (·.code != 0)

/-- The checks on a wide load and its second slot. -/
def validWide (i hi : BpfInsn) : Bool :=
  !(i.dst == 10 || i.offset != 0 || decide (i.src > 1)) &&
    !(hi.code != 0 || hi.regs != 0 || hi.offset != 0) &&
    !(i.src != 0 && (decide (i.immediate < 0) || decide (i.immediate ≥ 7) || hi.immediate != 0))

def validAlu (i : BpfInsn) : Bool :=
  if i.dst == 10 || i.offset != 0 then false
  else if i.op == 0xd0 then
    !(i.cls != 4 || i.src != 0 || (i.immediate != 16 && i.immediate != 32 && i.immediate != 64))
  else if decide (i.op > 0xc0) || (i.op == 0x80 && i.fromRegister) then false
  else if (if i.fromRegister then i.immediate != 0 else i.src != 0) then false
  else !(i.op == 0x80 && i.immediate != 0)

/-- Plain loads and stores only: no atomics, no legacy loads. -/
def validAccess (i : BpfInsn) : Bool :=
  if i.code &&& 0xe0 != 0x60 then false
  else if i.cls == 1 && (i.dst == 10 || i.immediate != 0) then false
  else if i.cls == 2 && i.src != 0 then false
  else !(i.cls == 3 && i.immediate != 0)

def validBranch (code : List BpfInsn) (pc : ℕ) (i : BpfInsn) : Bool :=
  if i.op == 0x80 then !(i.code != 0x85 || i.regs != 0 || i.offset != 0 || i.immediate != 1)
  else if i.op == 0x90 then !(i.code != 0x95 || i.regs != 0 || i.offset != 0 || i.immediate != 0)
  else if decide (i.op > 0xd0) || i.op == 0xe0 || i.op == 0xf0 then false
  else if (if i.op == 0 then i.code != 0x05 || i.regs != 0 || i.immediate != 0
    else if i.fromRegister then i.immediate != 0 else i.src != 0) then false
  else target code pc i.offset

/-- An instruction of one slot, at `pc`. -/
def validNarrow (code : List BpfInsn) (pc : ℕ) (i : BpfInsn) : Bool :=
  if i.cls == 4 || i.cls == 7 then validAlu i
  else if i.cls == 1 || i.cls == 2 || i.cls == 3 then validAccess i
  else if i.cls == 5 || i.cls == 6 then validBranch code pc i
  else false

/-- The loop of `bpf_validate` from `pc`, with the slots still to be read; the answer is whether an
exit was seen. -/
def validateFrom (code : List BpfInsn) (pc : ℕ) (exit : Bool) : List BpfInsn → Bool
  | [] => exit
  | i :: rest =>
    if decide (i.dst > 10) || decide (i.src > 10) then false
    else if i.code == 0x18 then
      match rest with
      | [] => false
      | hi :: rest => if validWide i hi then validateFrom code (pc + 2) exit rest else false
    else if validNarrow code pc i then validateFrom code (pc + 1) (exit || i.code == 0x95) rest
    else false

def bpfValidate (code : List BpfInsn) : Bool :=
  if code.length == 0 || decide (code.length > bpfMaxInsns) then false
  else validateFrom code 0 false code

/-! ## Machine state -/

/-- What a pointer of the interpreter may point into. -/
inductive Region
  | stack
  | context
  | packet
  | values (id : Fin bpfMaps)
  | keys (id : Fin bpfMaps)
  deriving DecidableEq

structure Pointer where
  region : Region
  offset : ℕ
  deriving DecidableEq

/-- The pointer `count` bytes further on. -/
def Pointer.add (p : Pointer) (count : ℕ) : Pointer := ⟨p.region, p.offset + count⟩

/-- Why `bpf_execute` returned. -/
inductive Halt
  /-- `BPF_EXIT`, with the value of r0. -/
  | exit (value : UInt64)
  /-- `memory` gave no pointer. -/
  | refused
  | lookup
  | fuel
  | pastEnd
  /-- An empty program or one with too many instructions. -/
  | length
  | register
  | wide
  | mapId
  | framePointer
  | byteOrder
  | aluOperation
  | mode
  | helper
  | jumpOperation
  | target
  | opcode
  /-- An access outside an object, which C leaves undefined. -/
  | outOfBounds
  deriving DecidableEq

/-- The local variables of `bpf_execute` and the environment it works on. -/
structure Vm where
  registers : Vector UInt64 11
  stack : List UInt8
  pc : ℕ
  steps : ℕ
  environment : BpfEnvironment

abbrev Exec (α : Type) := Program Vm Halt α

/-- The bytes of an object, unless it is a null pointer. -/
def Vm.bytes (vm : Vm) : Region → Option (List UInt8)
  | .stack => some vm.stack
  | .context => some vm.environment.context
  | .packet => some vm.environment.packet
  | .values id => (vm.environment.maps id).values
  | .keys id => (vm.environment.maps id).keys

def BpfEnvironment.setMap (e : BpfEnvironment) (id : Fin bpfMaps) (m : BpfMap) : BpfEnvironment :=
  { e with maps := Function.update e.maps id m }

def Vm.setBytes (vm : Vm) (region : Region) (bytes : List UInt8) : Vm :=
  match region with
  | .stack => { vm with stack := bytes }
  | .context => { vm with environment := { vm.environment with context := bytes } }
  | .packet => { vm with environment := { vm.environment with packet := bytes } }
  | .values id =>
    let m := vm.environment.maps id
    { vm with environment := vm.environment.setMap id { m with values := some bytes } }
  | .keys id =>
    let m := vm.environment.maps id
    { vm with environment := vm.environment.setMap id { m with keys := some bytes } }

/-! ## Checked accesses -/

/-- `r[n]`. -/
def getRegister (n : ℕ) : Exec UInt64 := do
  match (← get).registers[n]? with
  | some value => pure value
  | none => throw .outOfBounds

def setRegister (n : ℕ) (value : UInt64) : Exec PUnit :=
  if h : n < 11 then modify fun vm ↦ { vm with registers := vm.registers.set n value h }
  else throw .outOfBounds

/-- `p[i]`. -/
def load (p : Pointer) (i : ℕ) : Exec UInt8 := do
  match ((← get).bytes p.region).bind (·[p.offset + i]?) with
  | some byte => pure byte
  | none => throw .outOfBounds

def store (p : Pointer) (i : ℕ) (byte : UInt8) : Exec PUnit := do
  let vm ← get
  match vm.bytes p.region with
  | some bytes =>
    if p.offset + i < bytes.length then set (vm.setBytes p.region (bytes.set (p.offset + i) byte))
    else throw .outOfBounds
  | none => throw .outOfBounds

/-- `e->maps[id]`. -/
def mapIndex (id : ℕ) : Exec (Fin bpfMaps) :=
  if h : id < bpfMaps then pure ⟨id, h⟩ else throw .outOfBounds

/-! ## Memory and maps -/

def readLe (p : Pointer) (size : ℕ) : Exec UInt64 :=
  (List.range size).foldlM (fun n i ↦ do return n ||| ((← load p i).toUInt64 <<< UInt64.ofNat (i * 8))) 0

/-- Whether `size` bytes at `address` lie in the region of `limit` bytes at `base`. -/
def covers (base address limit size : UInt64) : Bool :=
  decide (address ≥ base) && decide (address - base ≤ limit) && decide (size ≤ limit - (address - base))

/-- The pointer behind a virtual address, when the access is allowed. -/
def memory (address : UInt64) (size : UInt32) (write : Bool) : Exec (Option Pointer) := do
  let e := (← get).environment
  if covers bpfStack address 512 size.toUInt64 then
    pure (some ⟨.stack, (address - bpfStack).toNat⟩)
  else if !write && covers bpfCtx address e.contextSize.toUInt64 size.toUInt64 then
    pure (some ⟨.context, (address - bpfCtx).toNat⟩)
  else if !write && covers bpfData address e.packetSize.toUInt64 size.toUInt64 then
    pure (some ⟨.packet, (address - bpfData).toNat⟩)
  else if address < bpfValues ∨ address ≥ bpfValues + 7 * 0x100000 then pure none
  else do
    let offset := (address - bpfValues).toUInt32 &&& 0xfffff
    let index := offset >>> 8
    let within := offset &&& 255
    let id ← mapIndex ((address - bpfValues).toUInt32 >>> 20).toNat
    let m := e.maps id
    if m.values = none ∨ m.valueSize > 256 ∨ index ≥ m.capacity ∨ within > m.valueSize ∨
        size > m.valueSize - within ∨ (write = true ∧ m.writable = false) then pure none
    else pure (some ⟨.values id, (index * m.valueSize).toNat + within.toNat⟩)

/-- The first `bits` bits behind the length agree. -/
def samePrefix (key prefixKey : Pointer) (bits : ℕ) : Exec Bool :=
  (List.range bits).allM fun b ↦ do
    let difference := (← load key (4 + b / 8)) ^^^ (← load prefixKey (4 + b / 8))
    return difference &&& (0x80 >>> UInt8.ofNat (b % 8)) == 0

/-- The entry with the longest prefix of the key, and the length of that prefix. -/
def longestPrefix (id : Fin bpfMaps) (entries : ℕ) (key : Pointer) (index : UInt32) :
    Exec (Option (ℕ × UInt32)) :=
  (List.range entries).foldlM (fun best i ↦ do
    let prefixKey : Pointer := ⟨.keys id, i * 20⟩
    let bits := (← readLe prefixKey 4).toUInt32
    if decide (bits > index) || decide (bits > 128) || best.any fun b ↦ decide (bits ≤ b.2) then
      pure best
    else if ← samePrefix key prefixKey bits.toNat then pure (some (i, bits)) else pure best) none

/-- The value a successful `lookup` stores at `index` of a map. -/
def element (id : Fin bpfMaps) (m : BpfMap) (index : UInt32) : Exec (Option UInt64) :=
  if index ≥ m.capacity then pure (some 0)
  else if m.type = bpfMapArray then
    if m.valueSize ≠ 4 then pure none
    else do
      let inner := (← readLe ⟨.values id, (index * 4).toNat⟩ 4).toUInt32
      if inner.toNat ≥ bpfMaps then pure none else pure (some (bpfHandles + inner.toUInt64))
  else pure (some (bpfValues + UInt64.ofNat id * 0x100000 + index.toUInt64 * 256))

/-- `none` is the result `false`.  The source then has cleared `*result` at most, which nobody reads. -/
def lookup (handle keyAddress : UInt64) : Exec (Option UInt64) := do
  if handle < bpfHandles ∨ handle ≥ bpfHandles + 7 then pure none
  else do
    let id ← mapIndex (handle - bpfHandles).toNat
    let m := (← get).environment.maps id
    if m.values = none ∨ m.valueSize = 0 ∨ m.valueSize > 256 ∨ m.capacity > 4096 ∨
        (m.keySize ≠ 4 ∧ m.keySize ≠ 20) then pure none
    else
      match ← memory keyAddress m.keySize false with
      | none => pure none
      | some key => do
        let index := (← readLe key 4).toUInt32
        if m.type = bpfLpm then
          if m.keySize ≠ 20 ∨ m.keys = none ∨ index > 128 ∨ m.entries > m.capacity then pure none
          else
            match ← longestPrefix id m.entries.toNat key index with
            | none => pure (some 0)
            | some best => element id m (UInt32.ofNat best.1)
        else if m.type ≠ bpfArray ∧ m.type ≠ bpfPercpuArray ∧ m.type ≠ bpfMapArray then pure none
        else element id m index

/-! ## Arithmetic -/

/-- One round of the division: quotient and remainder after bit `i`. -/
def divideRound (n d : UInt64) (qr : UInt64 × UInt64) (i : ℕ) : UInt64 × UInt64 :=
  let high := qr.2 >>> 63 != 0
  let r := (qr.2 <<< 1) ||| ((n >>> UInt64.ofNat i) &&& 1)
  if high || decide (r ≥ d) then (qr.1 ||| (1 <<< UInt64.ofNat i), r - d) else (qr.1, r)

/-- Unsigned division bit by bit, from the top. -/
def divide (n d : UInt64) (remainder : Bool) : UInt64 :=
  if d = 0 then (if remainder then n else 0)
  else
    let qr := (List.range 64).reverse.foldl (divideRound n d) (0, 0)
    if remainder then qr.2 else qr.1

/-- The result of an operation on `a` and `b`, before it is cut to the width. -/
def aluValue (op : UInt8) (wide : Bool) (a b : UInt64) : Option UInt64 :=
  let shift := b &&& (if wide then 63 else 31)
  if op = 0x00 then some (a + b)
  else if op = 0x10 then some (a - b)
  else if op = 0x20 then some (a * b)
  else if op = 0x30 then some (divide a b false)
  else if op = 0x40 then some (a ||| b)
  else if op = 0x50 then some (a &&& b)
  else if op = 0x60 then some (a <<< shift)
  else if op = 0x70 then some (a >>> shift)
  else if op = 0x80 then some (0 - a)
  else if op = 0x90 then some (divide a b true)
  else if op = 0xa0 then some (a ^^^ b)
  else if op = 0xb0 then some b
  else if op = 0xc0 then
    some (if wide then (a.toInt64 >>> shift.toInt64).toUInt64
      else (a.toUInt32.toInt32 >>> shift.toUInt32.toInt32).toUInt32.toUInt64)
  else none

/-- The low `bits` bits of `a`, with the order of the bytes turned round for `swap`. -/
def swapBytes (a : UInt64) (bits : ℕ) (swap : Bool) : UInt64 :=
  let a := if bits < 64 then a &&& ((1 <<< UInt64.ofNat bits) - 1) else a
  let round (p : UInt64 × UInt64) (_ : ℕ) := ((p.1 <<< 8) ||| (p.2 &&& 255), p.2 >>> 8)
  if swap then ((List.range (bits / 8)).foldl round (0, a)).1 else a

/-- Whether a branch is taken; `sa` and `sb` are the signed values of `a` and `b`. -/
def taken (op : UInt8) (a b : UInt64) (sa sb : ℤ) : Option Bool :=
  if op = 0x00 then some true
  else if op = 0x10 then some (a == b)
  else if op = 0x20 then some (decide (a > b))
  else if op = 0x30 then some (decide (a ≥ b))
  else if op = 0x40 then some (a &&& b != 0)
  else if op = 0x50 then some (a != b)
  else if op = 0x60 then some (decide (sa > sb))
  else if op = 0x70 then some (decide (sa ≥ sb))
  else if op = 0xa0 then some (decide (a < b))
  else if op = 0xb0 then some (decide (a ≤ b))
  else if op = 0xc0 then some (decide (sa < sb))
  else if op = 0xd0 then some (decide (sa ≤ sb))
  else none

/-! ## Instructions -/

/-- `code[pc++]`. -/
def nextSlot (code : List BpfInsn) : Exec BpfInsn := do
  let vm ← get
  match code[vm.pc]? with
  | some i => do
    set { vm with pc := vm.pc + 1 }
    pure i
  | none => throw .outOfBounds

def wideLoad (code : List BpfInsn) (i : BpfInsn) : Exec PUnit := do
  if (← get).pc ≥ code.length ∨ i.dst = 10 ∨ i.src > 1 then throw .wide
  else do
    let hi ← nextSlot code
    let value := i.immediate.toUInt32.toUInt64 ||| (hi.immediate.toUInt32.toUInt64 <<< 32)
    setRegister i.dst value
    if i.src ≠ 0 then
      if value ≥ 7 then throw .mapId else setRegister i.dst (value + bpfHandles)
    else pure ⟨⟩

/-- The second operand. -/
def operand (i : BpfInsn) : Exec UInt64 :=
  if i.fromRegister then getRegister i.src else pure i.signExtended

def alu (i : BpfInsn) : Exec PUnit :=
  if i.dst = 10 then throw .framePointer
  else do
    let wide := i.cls == 7
    let value ← getRegister i.dst
    let b ← operand i
    if i.op = 0xd0 then
      if wide ∨ (i.immediate ≠ 16 ∧ i.immediate ≠ 32 ∧ i.immediate ≠ 64) then throw .byteOrder
      else setRegister i.dst (swapBytes value i.immediate.toInt.toNat i.fromRegister)
    else
      match aluValue i.op wide (if wide then value else value.toUInt32.toUInt64)
        (if wide then b else b.toUInt32.toUInt64) with
      | none => throw .aluOperation
      | some a => setRegister i.dst (if wide then a else a.toUInt32.toUInt64)

/-- The width of a load or store in bytes. -/
def accessSize (i : BpfInsn) : ℕ :=
  if i.code &&& 0x18 = 0 then 4 else if i.code &&& 0x18 = 8 then 2
  else if i.code &&& 0x18 = 16 then 1 else 8

/-- What a store writes. -/
def storedValue (i : BpfInsn) : Exec UInt64 :=
  if i.cls = 3 then getRegister i.src else pure i.signExtended

def access (i : BpfInsn) : Exec PUnit :=
  if i.code &&& 0xe0 ≠ 0x60 ∨ (i.cls = 1 ∧ i.dst = 10) then throw .mode
  else do
    let base ← getRegister (if i.cls = 1 then i.src else i.dst)
    match ← memory (base + i.offset.toInt64.toUInt64) (UInt32.ofNat (accessSize i)) (i.cls != 1) with
    | none => throw .refused
    | some p =>
      if i.cls = 1 then do setRegister i.dst (← readLe p (accessSize i))
      else do
        let value ← storedValue i
        (List.range (accessSize i)).forM fun byte ↦
          store p byte (value >>> UInt64.ofNat (byte * 8)).toUInt8

/-- Helper 1, `bpf_map_lookup_elem`, with its clobbered registers. -/
def call (i : BpfInsn) : Exec PUnit :=
  if i.immediate ≠ 1 then throw .helper
  else do
    match ← lookup (← getRegister 1) (← getRegister 2) with
    | none => throw .lookup
    | some result => do
      setRegister 0 result
      [1, 2, 3, 4, 5].forM fun reg ↦ setRegister reg 0

def jump (code : List BpfInsn) (i : BpfInsn) : Exec PUnit := do
  let next : ℤ := (← get).pc + i.offset.toInt
  if next < 0 ∨ next ≥ code.length then throw .target
  else
    match code[next.toNat]? with
    | none => throw .outOfBounds
    | some there =>
      if there.code = 0 then throw .target else modify fun vm ↦ { vm with pc := next.toNat }

def branch (code : List BpfInsn) (i : BpfInsn) : Exec PUnit :=
  if i.code = 0x95 then do throw (.exit (← getRegister 0))
  else if i.code = 0x85 then call i
  else do
    let narrow := i.cls == 6
    let x ← getRegister i.dst
    let y ← operand i
    let a := if narrow then x.toUInt32.toUInt64 else x
    let b := if narrow then y.toUInt32.toUInt64 else y
    let sa := if narrow then x.toUInt32.toInt32.toInt else x.toInt64.toInt
    let sb := if narrow then y.toUInt32.toInt32.toInt else y.toInt64.toInt
    match taken i.op a b sa sb with
    | none => throw .jumpOperation
    | some true => jump code i
    | some false => pure ⟨⟩

/-- One instruction, its second slot and its register numbers behind it. -/
def execute (code : List BpfInsn) (i : BpfInsn) : Exec PUnit :=
  if i.dst > 10 ∨ i.src > 10 then throw .register
  else if i.code = 0x18 then wideLoad code i
  else if i.cls = 4 ∨ i.cls = 7 then alu i
  else if i.cls = 1 ∨ i.cls = 2 ∨ i.cls = 3 then access i
  else if i.cls = 5 ∨ i.cls = 6 then branch code i
  else throw .opcode

/-- One round of the interpreter's loop. -/
def step (code : List BpfInsn) : Exec PUnit := do
  let i ← nextSlot code
  modify fun vm ↦ { vm with steps := vm.steps + 1 }
  execute code i

/-- The loop, with the fuel still left. -/
def loop (code : List BpfInsn) : ℕ → Exec Empty
  | 0 => do if (← get).pc < code.length then throw .fuel else throw .pastEnd
  | fuel + 1 => do
    if (← get).pc < code.length then do
      step code
      loop code fuel
    else throw .pastEnd

/-- The frame pointer is the last register. -/
theorem frame_lt : 10 < 11 := by decide

def start (e : BpfEnvironment) : Vm where
  registers := ((Vector.replicate 11 0).set 1 bpfCtx).set 10 (bpfStack + 512) frame_lt
  stack := List.replicate 512 0
  pc := 0
  steps := 0
  environment := e

/-- Why `bpf_execute` returned, and what its variables and the environment were then. -/
def bpfExecute (code : List BpfInsn) (e : BpfEnvironment) : Halt × Vm :=
  if code.length = 0 ∨ code.length > bpfMaxInsns then (.length, start e)
  else
    match loop code bpfFuel (start e) with
    | .ok never _ => never.elim
    | .error halt vm => (halt, vm)

/-- What the caller of `bpf_execute` sees: `ok`, `value` and `steps`. -/
structure BpfResult where
  ok : Bool
  value : UInt64
  steps : ℕ
  deriving DecidableEq

def result : Halt × Vm → BpfResult
  | (.exit value, vm) => ⟨true, value, vm.steps⟩
  | (_, vm) => ⟨false, 0, vm.steps⟩

end JordyOS.Bpf
