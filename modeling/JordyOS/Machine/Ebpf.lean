import Mathlib.Data.Nat.Digits.Defs
import Mathlib.Logic.Function.Basic

/-!
# The eBPF instruction set

The arithmetic, byte-order, wide-load and jump instructions of eBPF as the instruction set defines
them, on bit vectors.  An operation is defined once, for operands of any width; an instruction chooses
the width, and a narrow result is extended with zeros.
-/

namespace JordyOS.Machine.Ebpf

/-- Whether an operation works on whole registers or on their low halves. -/
inductive Width
  | narrow
  | wide
  deriving DecidableEq

def Width.bits : Width → ℕ
  | .narrow => 32
  | .wide => 64

inductive Operation
  | add | sub | mul | div | or | and | lsh | rsh | neg | mod | xor | mov | arsh
  deriving DecidableEq

/-- What an operation makes of its destination `a` and its source `b`. -/
def Operation.apply {w : ℕ} (operation : Operation) (a b : BitVec w) : BitVec w :=
  match operation with
  | .add => a + b
  | .sub => a - b
  | .mul => a * b
  | .div => if b = 0 then 0 else BitVec.ofNat w (a.toNat / b.toNat)
  | .or => a ||| b
  | .and => a &&& b
  | .lsh => a <<< (b.toNat % w)
  | .rsh => a >>> (b.toNat % w)
  | .neg => -a
  | .mod => if b = 0 then a else BitVec.ofNat w (a.toNat % b.toNat)
  | .xor => a ^^^ b
  | .mov => b
  | .arsh => a.sshiftRight (b.toNat % w)

inductive Condition
  | always | eq | gt | ge | set | ne | sgt | sge | lt | le | slt | sle
  deriving DecidableEq

/-- Whether a jump is taken for the operands `a` and `b`. -/
def Condition.holds {w : ℕ} (condition : Condition) (a b : BitVec w) : Bool :=
  match condition with
  | .always => true
  | .eq => a == b
  | .gt => decide (b.toNat < a.toNat)
  | .ge => decide (b.toNat ≤ a.toNat)
  | .set => a &&& b != 0
  | .ne => a != b
  | .sgt => decide (b.toInt < a.toInt)
  | .sge => decide (b.toInt ≤ a.toInt)
  | .lt => decide (a.toNat < b.toNat)
  | .le => decide (a.toNat ≤ b.toNat)
  | .slt => decide (a.toInt < b.toInt)
  | .sle => decide (a.toInt ≤ b.toInt)

/-- Byte `k` of a word, the lowest being byte 0. -/
def byteOf (a : BitVec 64) (k : ℕ) : ℕ := a.toNat / 256 ^ k % 256

/-- The word made of the low `count` bytes in reversed order. -/
def reverseBytes (count : ℕ) (a : BitVec 64) : BitVec 64 :=
  BitVec.ofNat 64 (Nat.ofDigits 256 ((List.range count).map (byteOf a)).reverse)

abbrev Registers := Fin 11 → BitVec 64

/-- The second operand of an instruction. -/
inductive Operand
  | register (n : Fin 11)
  | immediate (value : BitVec 32)
  deriving DecidableEq

/-- Immediates are extended with their sign. -/
def Operand.value (r : Registers) : Operand → BitVec 64
  | .register n => r n
  | .immediate value => value.signExtend 64

inductive Instruction
  | alu (width : Width) (operation : Operation) (dst : Fin 11) (src : Operand)
  | toLittleEndian (bits : ℕ) (dst : Fin 11)
  | toBigEndian (bits : ℕ) (dst : Fin 11)
  /-- A wide load, which takes two slots. -/
  | load (dst : Fin 11) (value : BitVec 64)
  | jump (width : Width) (condition : Condition) (dst : Fin 11) (src : Operand) (offset : ℤ)
  deriving DecidableEq

namespace Instruction

/-- The registers after an instruction: the destination alone may have changed. -/
def registers (instruction : Instruction) (r : Registers) : Registers :=
  match instruction with
  | .alu width operation dst src =>
    Function.update r dst ((operation.apply ((r dst).setWidth width.bits)
      ((src.value r).setWidth width.bits)).setWidth 64)
  | .toLittleEndian bits dst => Function.update r dst (((r dst).setWidth bits).setWidth 64)
  | .toBigEndian bits dst => Function.update r dst (reverseBytes (bits / 8) (r dst))
  | .load dst value => Function.update r dst value
  | .jump .. => r

/-- The slot an instruction at `pc` goes on to. -/
def next (instruction : Instruction) (r : Registers) (pc : ℕ) : ℤ :=
  match instruction with
  | .load .. => pc + 2
  | .jump width condition dst src offset =>
    if condition.holds ((r dst).setWidth width.bits) ((src.value r).setWidth width.bits) then
      pc + 1 + offset
    else pc + 1
  | _ => pc + 1

end Instruction

end JordyOS.Machine.Ebpf
