import JordyOS.Isolation.Services
import JordyOS.Kernel.ContextSwitch
import JordyOS.Machine.Interrupt
import Mathlib.Data.List.FinRange

/-!
# Between the rings

`interrupts.asm`, with the tables that `isolation_init` builds for it.  A process is entered by
`isolation_enter`; from then on the kernel runs only when the processor takes an interrupt, on a stack of its
own, and leaves the process for good as if `isolation_enter` had returned.
-/

namespace JordyOS.Isolation

open Machine
open JordyOS.Kernel (calleeSaved contextOf)

/-! ## Tables -/

/-- Where the variables of the two files lie. -/
structure Linkage where
  savedKernelFx : UInt64
  savedKernelRsp : UInt64
  entryStack : UInt64
  faultStack : UInt64
  isolationIsrs : UInt8 → UInt64
  aligned : entryStack.toNat % 16 = 0
  below : entryStack.toNat + 65536 < 2 ^ 64
  faultAligned : faultStack.toNat % 16 = 0
  faultBelow : faultStack.toNat + 8192 < 2 ^ 64
  fxBelow : savedKernelFx.toNat + 512 < 2 ^ 64
  savesApart : savedKernelFx.toNat + 512 ≤ savedKernelRsp.toNat ∨ savedKernelRsp.toNat + 8 ≤ savedKernelFx.toNat
  fxApart : savedKernelFx.toNat + 512 ≤ entryStack.toNat ∨ entryStack.toNat + 65536 ≤ savedKernelFx.toNat
  rspApart : savedKernelRsp.toNat + 8 ≤ entryStack.toNat ∨ entryStack.toNat + 65536 ≤ savedKernelRsp.toNat

def tssSize : ℕ := 104

/-- `gdt_start[6]` and `gdt_start[7]` for the task state segment at an address. -/
def tssDescriptor (base : UInt64) : UInt64 × UInt64 :=
  let limit : UInt64 := UInt64.ofNat (tssSize - 1)
  let segment : UInt64 := 0x89
  let low : UInt64 := (limit &&& (0xffff : UInt64)) ||| (base &&& (0xffff : UInt64)) <<< 16 |||
    (base >>> 16 &&& (255 : UInt64)) <<< 32 ||| segment <<< 40 ||| (limit >>> 16 &&& (15 : UInt64)) <<< 48 |||
    (base >>> 24 &&& (255 : UInt64)) <<< 56
  (low, base >>> 32)

/-- The descriptors of `kernel_entry.asm` in front of the one for the task state segment. -/
def gdtStart : List UInt64 :=
  [0, 0x00cf9a000000ffff, 0x00cf92000000ffff, 0x00af9a000000ffff, 0x00cff2000000ffff, 0x00affa000000ffff]

/-- What the kernel has in `ds`, `es`, `fs` or `gs`, as ring 3 finds it. -/
def opened (selector : UInt16) : UInt16 := Cpu.openTo gdtStart 0 3 selector

namespace Linkage

variable (linkage : Linkage)

def tss : Tss where
  rsp i := if i = 0 then linkage.entryStack + 65536 else 0
  ist i := if i = 0 then linkage.faultStack + 8192 else 0
  iomap := UInt16.ofNat tssSize

def idt (i : UInt8) : Gate where
  low := (linkage.isolationIsrs i &&& 0xffff).toUInt16
  selector := 0x18
  ist := if i = 8 then 1 else 0
  type := if i = 128 then 0xee else 0x8e
  middle := (linkage.isolationIsrs i >>> 16).toUInt16
  high := (linkage.isolationIsrs i >>> 32).toUInt32

/-! ## Entering a process -/

/-- Eight zeros take the place of what the floating-point stack held, and none is left on it. -/
def clearFx : List Instruction :=
  [.fninit] ++ List.replicate 8 .fldz ++ [.fninit, .ldmxcsr 0x1f80] ++ (List.finRange 16).map .pxor

/-- The registers of the kernel that a process does not get to see. -/
def cleared : List Register :=
  [.rax, .rbx, .rcx, .rdx, .rsi, .rbp, .r8, .r9, .r10, .r11, .r12, .r13, .r14, .r15]

/-- Behind the registers of the caller the rest of its state is saved, and the tables are the process's. -/
def saveCode : List Instruction :=
  [.storeAt linkage.savedKernelRsp .rsp, .fxsaveAt linkage.savedKernelFx, .move .rax .rdx, .moveCr3]

/-- The frame that `iretq` finds. -/
def frameCode : List Instruction :=
  [.moveAx 0x23, .moveDs, .moveEs, .pushValue 0x23, .push .rsi, .pushValue 2, .pushValue 0x2b, .push .rdi,
    .move .rdi .rcx]

def isolationEnterCode : List Instruction :=
  calleeSaved.map .push ++ linkage.saveCode ++ clearFx ++ frameCode ++ cleared.map .clear

/-- `isolation_enter`, with the entry in `rdi`, the stack in `rsi`, the tables in `rdx` and the startup page in
`rcx`. -/
def isolationEnter (c : Cpu) : Cpu := (c.run linkage.isolationEnterCode).iretq gdtStart

/-! ## Interrupts -/

/-- The stub of a vector, in front of `jmp interrupt_common`. -/
def isr (vector : UInt8) : List UInt64 :=
  (if vector ≠ 8 ∧ vector ≠ 10 ∧ vector ≠ 11 ∧ vector ≠ 12 ∧ vector ≠ 13 ∧ vector ≠ 14 ∧ vector ≠ 17 ∧
      vector ≠ 21 ∧ vector ≠ 29 ∧ vector ≠ 30 then [0] else []) ++ [vector.toUInt64]

/-- The registers in the order in which they are pushed. -/
def frameRegisters : List Register :=
  [.rax, .rbx, .rcx, .rdx, .rbp, .rdi, .rsi, .r8, .r9, .r10, .r11, .r12, .r13, .r14, .r15]

/-- The code between the registers on the stack and the call of `isolation_interrupt`. -/
def callCode : List Instruction :=
  [.move .rbx .rsp, .sub .rsp 528, .and .rsp 0xfffffffffffffff0, .fxsave .rsp, .fninit, .ldmxcsr 0x1f80,
    .moveAx 0x10, .moveDs, .moveEs, .move .rdi .rbx]

/-- `interrupt_common` in front of the call of `isolation_interrupt`. -/
def interruptCommon : List Instruction := [.cld] ++ frameRegisters.map .push ++ callCode

/-- The processor at the call of `isolation_interrupt`. -/
def interrupted (cause : Cause) (c : Cpu) : Cpu :=
  let (vector, error) := cause.taken linkage.idt c.ring
  ((c.deliver (linkage.idt vector) linkage.tss error).run ((isr vector).map .pushValue)).run interruptCommon

/-- The way back to ring 3, in front of `iretq`. -/
def returnCode : List Instruction :=
  [.fxrstor .rsp, .moveAx 0x23, .moveDs, .moveEs, .move .rsp .rbx] ++ frameRegisters.reverse.map .pop ++ [.add .rsp 16]

def leaveUserCode : List Instruction :=
  [.moveAx 0x10, .moveDs, .moveEs, .moveSs, .fxrstorAt linkage.savedKernelFx, .loadFrom .rsp linkage.savedKernelRsp] ++
    calleeSaved.reverse.map .pop

def leaveUser (c : Cpu) : Cpu := (c.run linkage.leaveUserCode).ret

/-- Behind the call of `isolation_interrupt`. -/
def answered (c : Cpu) : Cpu :=
  if (c.registers .rax).toUInt32 ≠ 0 then linkage.leaveUser c else (c.run returnCode).iretq gdtStart

end Linkage

/-! ## The handler -/

/-- The words of the frame, the lowest one first. -/
def frameWords (vector : UInt8) (error : UInt64) (c : Cpu) : List UInt64 :=
  (Linkage.frameRegisters.reverse.map c.registers) ++
    [vector.toUInt64, error, c.rip, c.cs.toUInt64, c.rflags, c.registers .rsp, c.ss.toUInt64]

/-- What `syscall` reads of a frame. -/
def interruptFrame (m : Memory) (frame : ℕ) : InterruptFrame where
  rax := m.word (frame + 112)
  rdi := m.word (frame + 72)
  rsi := m.word (frame + 64)
  rdx := m.word (frame + 88)
  rcx := m.word (frame + 96)
  r8 := m.word (frame + 56)

/-- The answer of `isolation_interrupt`; without one it halts. -/
def isolationInterrupt (active : Bool) (m : Memory) (frame : ℕ) : Option UInt32 :=
  if m.word (frame + 144) &&& 3 ≠ 3 ∨ active = false ∨ m.word (frame + 120) = 8 then none
  else if m.word (frame + 120) = 128 then
    if m.word (frame + 112) = 0 then some 1 else some 0
  else some 1

/-- What `isolation_interrupt` keeps, as any function of C does, for a call in `c` that returns in `c'`.  It writes
to its stack, to the word of the frame for the answer, and to `data`.  No code of the kernel loads `fs` or `gs`. -/
structure Handles (linkage : Linkage) (data : ℕ → Prop) (c c' : Cpu) : Prop where
  rsp : c'.rsp = c.rsp
  saved : ∀ r ∈ calleeSaved, c'.registers r = c.registers r
  cs : c'.cs = c.cs
  fs : c'.fs = c.fs
  gs : c'.gs = c.gs
  cr3 : c'.cr3 = c.cr3
  stack : ∀ a, c.rsp ≤ a → a < linkage.entryStack.toNat + 65536 →
    (a < (c.registers .rdi).toNat + 112 ∨ (c.registers .rdi).toNat + 120 ≤ a) → c'.memory a = c.memory a
  memory : ∀ a, ¬ data a → (a < linkage.entryStack.toNat ∨ linkage.entryStack.toNat + 65536 ≤ a) →
    c'.memory a = c.memory a
  answer : isolationInterrupt true c.memory (c.registers .rdi).toNat = some (c'.registers .rax).toUInt32

end JordyOS.Isolation
