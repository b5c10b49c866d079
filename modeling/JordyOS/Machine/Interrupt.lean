import JordyOS.Machine.Processor

/-!
# Interrupts

Gates, the task state segment, and how a 64-bit processor enters a handler and comes back.  The selector in `cs`
carries the ring of the code in its two low bits.
-/

namespace JordyOS.Machine

/-! ## Tables -/

/-- An entry of the interrupt table. -/
structure Gate where
  low : UInt16
  selector : UInt16
  ist : UInt8
  type : UInt8
  middle : UInt16
  high : UInt32

namespace Gate

/-- The address of the handler. -/
def offset (g : Gate) : UInt64 := g.low.toUInt64 ||| g.middle.toUInt64 <<< 16 ||| g.high.toUInt64 <<< 32

/-- The outermost ring whose `int` passes. -/
def ring (g : Gate) : ℕ := g.type.toNat / 32 % 4

def present (g : Gate) : Bool := g.type.toNat.testBit 7

/-- An interrupt gate, which closes the processor for devices. -/
def isInterrupt (g : Gate) : Bool := g.type.toNat % 16 = 14

def stackIndex (g : Gate) : ℕ := g.ist.toNat % 8

end Gate

structure Tss where
  /-- The stacks for the inner rings. -/
  rsp : ℕ → UInt64
  /-- The stacks of the interrupt stack table; gates number them from one on. -/
  ist : ℕ → UInt64
  iomap : UInt16

/-- A byte of the port bitmap is read only when it lies within the segment. -/
def Tss.guards (tss : Tss) (limit : ℕ) (port : UInt16) : Prop := limit < tss.iomap.toNat + port.toNat / 8

/-- The base in a descriptor of two quadwords. -/
def descriptorBase (low high : UInt64) : ℕ :=
  low.toNat / 2 ^ 16 % 2 ^ 24 + low.toNat / 2 ^ 56 * 2 ^ 24 + high.toNat % 2 ^ 32 * 2 ^ 32

def descriptorLimit (low : UInt64) : ℕ := low.toNat % 2 ^ 16 + low.toNat / 2 ^ 48 % 2 ^ 4 * 2 ^ 16

/-- The type of a descriptor with its ring and the present bit. -/
def descriptorAccess (low : UInt64) : ℕ := low.toNat / 2 ^ 40 % 2 ^ 8

/-- The ring of the segment that a selector names. -/
def segmentRing (gdt : List UInt64) (selector : UInt16) : ℕ := (gdt.getD (selector.toNat / 8) 0).toNat / 2 ^ 45 % 4

/-- A field is put above the others. -/
theorem toNat_field (low high place : UInt64) (bits : ℕ) (hplace : place.toNat = bits) (hbits : bits < 64)
    (hlow : low.toNat < 2 ^ bits) (hhigh : high.toNat < 2 ^ (64 - bits)) :
    (low ||| high <<< place).toNat = low.toNat + high.toNat * 2 ^ bits := by
  have hfits : high.toNat * 2 ^ bits < 2 ^ 64 := by
    calc high.toNat * 2 ^ bits < 2 ^ (64 - bits) * 2 ^ bits :=
          Nat.mul_lt_mul_of_pos_right hhigh (Nat.two_pow_pos bits)
      _ = 2 ^ 64 := by rw [← pow_add, Nat.sub_add_cancel hbits.le]
  rw [UInt64.toNat_or, UInt64.toNat_shiftLeft, hplace, Nat.mod_eq_of_lt hbits, Nat.shiftLeft_eq,
    Nat.mod_eq_of_lt hfits, Nat.mul_comm, Nat.lor_comm, ← Nat.two_pow_add_eq_or_of_lt hlow, Nat.add_comm]

/-! ## Causes -/

inductive Cause
  /-- The instruction `int`. -/
  | software (vector : UInt8)
  | exception (vector : Fin 32) (error : UInt64)

/-- Whether the processor pushes an error code. -/
def pushesError (vector : UInt8) : Bool :=
  vector ∈ [8, 10, 11, 12, 13, 14, 17, 21, 29, 30]

/-- The vector and the error code that the processor takes; an `int` through a closed gate is a protection
fault. -/
def Cause.taken (idt : UInt8 → Gate) (ring : ℕ) : Cause → UInt8 × Option UInt64
  | .software vector =>
    if ring ≤ (idt vector).ring then (vector, none) else (13, some (8 * vector.toUInt64 + 2))
  | .exception vector error =>
    (UInt8.ofNat vector, if pushesError (UInt8.ofNat vector) then some error else none)

namespace Cpu

def ring (c : Cpu) : ℕ := c.cs.toNat % 4

/-- The stack of a handler. -/
def stackFor (gate : Gate) (tss : Tss) (c : Cpu) : UInt64 :=
  if gate.stackIndex ≠ 0 then tss.ist (gate.stackIndex - 1)
  else if c.ring ≠ 0 then tss.rsp 0 else c.registers .rsp

/-- The processor in front of what it pushes: on the handler's stack, in the handler's ring. -/
def redirect (gate : Gate) (tss : Tss) (c : Cpu) : Cpu :=
  { c.set .rsp (c.stackFor gate tss &&& 0xfffffffffffffff0) with
    rip := gate.offset
    cs := gate.selector
    ss := if c.ring ≠ 0 then 0 else c.ss
    rflags := c.rflags &&& 0xfffffffffffcbcff }

/-- What an interrupt keeps of the code that it stops. -/
def stopped (c : Cpu) : List UInt64 := [c.ss.toUInt64, c.registers .rsp, c.rflags, c.cs.toUInt64, c.rip]

/-- An interrupt is taken. -/
def deliver (gate : Gate) (tss : Tss) (error : Option UInt64) (c : Cpu) : Cpu :=
  (c.redirect gate tss).pushAll (c.stopped ++ error.toList)

/-- On the way to an outer ring a data segment of an inner one is closed; what names no segment becomes zero. -/
def openTo (gdt : List UInt64) (inner outer : ℕ) (selector : UInt16) : UInt16 :=
  if inner < outer ∧ (selector.toNat / 4 = 0 ∨ segmentRing gdt selector < outer) then 0 else selector

def iretq (gdt : List UInt64) (c : Cpu) : Cpu :=
  let cs := (c.memory.word (c.rsp + 8)).toUInt16
  { c.set .rsp (c.memory.word (c.rsp + 24)) with
    rip := c.memory.word c.rsp
    cs := cs
    rflags := c.memory.word (c.rsp + 16)
    ss := (c.memory.word (c.rsp + 32)).toUInt16
    ds := openTo gdt c.ring (cs.toNat % 4) c.ds
    es := openTo gdt c.ring (cs.toNat % 4) c.es
    fs := openTo gdt c.ring (cs.toNat % 4) c.fs
    gs := openTo gdt c.ring (cs.toNat % 4) c.gs }

/-! ## Values in registers -/

variable (c : Cpu)

theorem toUInt16_moveAx (rax : UInt64) (value : UInt16) :
    (rax &&& 0xffffffffffff0000 ||| value.toUInt64).toUInt16 = value := by
  have hmask : (0xffffffffffff0000 : UInt64).toUInt16 = 0 := by decide
  rw [UInt64.toUInt16_or, UInt64.toUInt16_and, UInt16.toUInt16_toUInt64, hmask, UInt16.and_zero, UInt16.zero_or]

/-- What is moved to `ax` is read from it. -/
theorem ax_moveAx (value : UInt16) : (c.exec (.moveAx value)).ax = value :=
  (congrArg UInt64.toUInt16 (registers_set_self c .rax _)).trans (toUInt16_moveAx _ _)

theorem run_pushValue (values : List UInt64) : c.run (values.map .pushValue) = c.pushAll values := by
  unfold run pushAll
  rw [List.foldl_map]
  rfl

theorem pushAll_append (first second : List UInt64) :
    c.pushAll (first ++ second) = (c.pushAll first).pushAll second := List.foldl_append

/-- An address on a boundary of 16 bytes is not rounded. -/
theorem and_boundary {value : UInt64} (h : value.toNat % 16 = 0) : value &&& 0xfffffffffffffff0 = value := by
  have hmask : (0xfffffffffffffff0 : UInt64).toNat = 2 ^ 4 * (2 ^ 60 - 1) := by decide
  have hlt : value.toNat < 2 ^ (4 + 60) := value.toNat_lt
  refine UInt64.toNat_inj.mp ?_
  rw [UInt64.toNat_and, hmask, and_highBits hlt]
  omega

/-- What `iretq` makes of a frame. -/
theorem iretq_eq (gdt : List UInt64) (cs ss : UInt16) {rip rflags rsp : UInt64} (hrip : c.memory.word c.rsp = rip)
    (hcs : c.memory.word (c.rsp + 8) = cs.toUInt64) (hrflags : c.memory.word (c.rsp + 16) = rflags)
    (hrsp : c.memory.word (c.rsp + 24) = rsp) (hss : c.memory.word (c.rsp + 32) = ss.toUInt64) :
    c.iretq gdt = { c.set .rsp rsp with
      rip := rip, cs := cs, rflags := rflags, ss := ss
      ds := openTo gdt c.ring (cs.toNat % 4) c.ds, es := openTo gdt c.ring (cs.toNat % 4) c.es
      fs := openTo gdt c.ring (cs.toNat % 4) c.fs, gs := openTo gdt c.ring (cs.toNat % 4) c.gs } := by
  unfold iretq
  rw [hrip, hcs, hrflags, hrsp, hss, UInt16.toUInt16_toUInt64, UInt16.toUInt16_toUInt64]

end Cpu

end JordyOS.Machine
