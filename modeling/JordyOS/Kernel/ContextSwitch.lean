import JordyOS.Machine.Processor

/-!
# The context switch

`ctx_switch.asm`.  A function that is called must give back six registers and the stack pointer; what it
finds when a call returns is its context.  The switch leaves the context of its caller in a frame on the
caller's stack and returns in the context of the frame that it is given.
-/

namespace JordyOS.Kernel

open Machine

/-- The registers that a function keeps for its caller, in the order in which they are pushed. -/
def calleeSaved : List Register := [.rbp, .rbx, .r12, .r13, .r14, .r15]

def ctxSwitchCode : List Instruction :=
  [.push .rbp, .push .rbx, .push .r12, .push .r13, .push .r14, .push .r15,
    .store .rdi .rsp, .move .rsp .rsi,
    .pop .r15, .pop .r14, .pop .r13, .pop .r12, .pop .rbx, .pop .rbp]

def ctxSwitch (c : Cpu) : Cpu := (c.run ctxSwitchCode).ret

/-! ## Contexts -/

@[ext]
structure Context where
  rip : UInt64
  rsp : ℕ
  saved : List UInt64

def contextOf (c : Cpu) : Context := ⟨c.rip, c.rsp, calleeSaved.map c.registers⟩

/-- The context in the frame at `sp`: six registers, and the address to return to. -/
def frameContext (m : Memory) (sp : ℕ) : Context where
  rip := m.word (sp + 48)
  rsp := sp + 56
  saved := [m.word (sp + 40), m.word (sp + 32), m.word (sp + 24), m.word (sp + 16), m.word (sp + 8), m.word sp]

theorem frameContext_congr {m n : Memory} {sp : ℕ} (h : ∀ a, sp ≤ a → a < sp + 56 → m a = n a) :
    frameContext m sp = frameContext n sp := by
  have hword (k : ℕ) (hk : k ≤ 48) : m.word (sp + k) = n.word (sp + k) :=
    Memory.word_congr fun a _ _ ↦ h a (by omega) (by omega)
  have hfirst : m.word sp = n.word sp := hword 0 (by decide)
  unfold frameContext
  rw [hword 48 le_rfl, hword 40 (by decide), hword 32 (by decide), hword 24 (by decide), hword 16 (by decide),
    hword 8 (by decide), hfirst]

/-- The frame of a function that has pushed its registers. -/
theorem frameContext_pushes {c c' : Cpu} {m : Memory} (h : Cpu.Pushes (calleeSaved.map c.registers) c c')
    (hm : ∀ a, c'.rsp ≤ a → a < c.rsp + 8 → m a = c'.memory a) :
    frameContext m c'.rsp = ⟨c.memory.word c.rsp, c.rsp + 8, calleeSaved.map c.registers⟩ := by
  have hlow : c'.rsp + 48 = c.rsp := h.rsp
  have hword (i : ℕ) (r : Register) (hr : (calleeSaved.map c.registers).reverse[i]? = some (c.registers r))
      (hi : i < 6) : m.word (c'.rsp + 8 * i) = c.registers r :=
    (Memory.word_congr fun a _ _ ↦ hm a (by omega) (by omega)).trans (h.word i _ hr)
  have hreturn : m.word (c'.rsp + 48) = c.memory.word c.rsp := by
    rw [hlow]
    exact Memory.word_congr fun a _ _ ↦ (hm a (by omega) (by omega)).trans (h.memory a (Or.inr (by omega)))
  have h15 : m.word c'.rsp = c.registers .r15 := hword 0 .r15 rfl (by decide)
  refine Context.ext hreturn ?_ ?_
  · change c'.rsp + 56 = c.rsp + 8
    omega
  · change [_, _, _, _, _, _] = [_, _, _, _, _, _]
    rw [hword 5 .rbp rfl (by decide), hword 4 .rbx rfl (by decide), hword 3 .r12 rfl (by decide),
      hword 2 .r13 rfl (by decide), hword 1 .r14 rfl (by decide), h15]

/-- The end of a function that finds its frame at the stack pointer. -/
theorem contextOf_ret {c : Cpu} (hroom : c.rsp + 56 < 2 ^ 64) :
    contextOf (c.run (calleeSaved.reverse.map .pop)).ret = frameContext c.memory c.rsp ∧
      (c.run (calleeSaved.reverse.map .pop)).ret = { c with
        registers := (c.run (calleeSaved.reverse.map .pop)).ret.registers
        rip := (c.run (calleeSaved.reverse.map .pop)).ret.rip } := by
  have hlength : calleeSaved.reverse.length = 6 := rfl
  have hpop : Cpu.Restores calleeSaved.reverse c (c.run (calleeSaved.reverse.map .pop)) :=
    Cpu.run_pop (by decide) (by decide) (by omega)
  generalize c.run (calleeSaved.reverse.map .pop) = c' at hpop ⊢
  have hmemory : c'.memory = c.memory := by rw [hpop.rest]
  have hrsp : c'.rsp = c.rsp + 48 := hpop.rsp
  have hret : c'.ret.rsp = c.rsp + 56 := by
    rw [Cpu.rsp_ret (by omega), hrsp]
  have hregister (i : ℕ) (r : Register) (hr : calleeSaved.reverse[i]? = some r) (hne : r ≠ .rsp) :
      c'.ret.registers r = c.memory.word (c.rsp + 8 * i) := by
    rw [Cpu.registers_ret, Cpu.registers_drop hne, hpop.restored i r hr]
  have h15 : c'.ret.registers .r15 = c.memory.word c.rsp := hregister 0 .r15 rfl (by decide)
  constructor
  · refine Context.ext ?_ hret ?_
    · change c'.memory.word c'.rsp = c.memory.word (c.rsp + 48)
      rw [hmemory, hrsp]
    · change [_, _, _, _, _, _] = [_, _, _, _, _, _]
      rw [hregister 5 .rbp rfl (by decide), hregister 4 .rbx rfl (by decide), hregister 3 .r12 rfl (by decide),
        hregister 2 .r13 rfl (by decide), hregister 1 .r14 rfl (by decide), h15]
  · unfold Cpu.ret Cpu.drop Cpu.set
    rw [hpop.rest]

/-! ## The switch -/

/-- Where the switch may write: the frame below the stack pointer and the word behind `rdi`. -/
structure Switchable (c : Cpu) : Prop where
  room : 48 ≤ c.rsp
  top : c.rsp + 8 < 2 ^ 64
  place : (c.registers .rdi).toNat + 8 ≤ c.rsp - 48 ∨ c.rsp + 8 ≤ (c.registers .rdi).toNat

variable {c : Cpu}

/-- The processor between the two stacks. -/
def leaving (c : Cpu) : Cpu := (c.run (calleeSaved.map .push)).exec (.store .rdi .rsp)

theorem ctxSwitch_eq (c : Cpu) :
    ctxSwitch c = (((leaving c).exec (.move .rsp .rsi)).run (calleeSaved.reverse.map .pop)).ret := rfl

/-- Leaving a stack. -/
structure Left (c c' : Cpu) : Prop where
  /-- The frame lies where the word behind `rdi` says. -/
  pointer : c'.memory.word (c.registers .rdi).toNat = UInt64.ofNat (c.rsp - 48)
  frame : frameContext c'.memory (c.rsp - 48) =
    ⟨c.memory.word c.rsp, c.rsp + 8, calleeSaved.map c.registers⟩
  memory : ∀ a, a < c.rsp - 48 ∨ c.rsp ≤ a → a < (c.registers .rdi).toNat ∨ (c.registers .rdi).toNat + 8 ≤ a →
    c'.memory a = c.memory a
  registers : ∀ r, r ≠ .rsp → c'.registers r = c.registers r
  rest : c' = { c with registers := c'.registers, memory := c'.memory }

theorem leaving_left (h : Switchable c) : Left c (leaving c) := by
  have hroom := h.room
  have hplace := h.place
  have hpush : Cpu.Pushes (calleeSaved.map c.registers) c (c.run (calleeSaved.map .push)) := by
    rw [Cpu.run_push (by decide)]
    exact Cpu.pushAll_pushes h.room
  have hrsp : (c.run (calleeSaved.map .push)).rsp = c.rsp - 48 := by
    have hlow : _ + 48 = c.rsp := hpush.rsp
    omega
  have hrdi := hpush.registers .rdi (by decide)
  have hvalue : (c.run (calleeSaved.map .push)).registers .rsp = UInt64.ofNat (c.rsp - 48) := by
    rw [← hrsp]
    exact (UInt64.ofNat_toNat).symm
  unfold leaving
  generalize c.run (calleeSaved.map .push) = c' at hpush hrsp hrdi hvalue ⊢
  have hmemory : (c'.exec (.store .rdi .rsp)).memory =
      c'.memory.setWord (c.registers .rdi).toNat (UInt64.ofNat (c.rsp - 48)) := by
    rw [← hrdi, ← hvalue]
    rfl
  refine ⟨by rw [hmemory, Memory.word_setWord], ?_, fun a ha hplace ↦ ?_, hpush.registers, ?_⟩
  · rw [← hrsp]
    refine frameContext_pushes hpush fun a _ _ ↦ ?_
    rw [hmemory, Memory.setWord_of_outside _ (by omega)]
  · rw [hmemory, Memory.setWord_of_outside _ hplace]
    exact hpush.memory a (by rw [hrsp]; exact ha)
  · rw [hpush.rest]
    rfl

/-- The switch: the caller's frame is left behind, and the frame behind `rsi` is taken up. -/
structure Switched (c c' : Cpu) : Prop where
  pointer : c'.memory.word (c.registers .rdi).toNat = UInt64.ofNat (c.rsp - 48)
  left : frameContext c'.memory (c.rsp - 48) =
    ⟨c.memory.word c.rsp, c.rsp + 8, calleeSaved.map c.registers⟩
  entered : contextOf c' = frameContext c'.memory (c.registers .rsi).toNat
  memory : ∀ a, a < c.rsp - 48 ∨ c.rsp ≤ a → a < (c.registers .rdi).toNat ∨ (c.registers .rdi).toNat + 8 ≤ a →
    c'.memory a = c.memory a

theorem ctxSwitch_switched (h : Switchable c) (hnew : (c.registers .rsi).toNat + 56 < 2 ^ 64) :
    Switched c (ctxSwitch c) := by
  have hleft := leaving_left h
  rw [ctxSwitch_eq]
  generalize leaving c = c₁ at hleft ⊢
  have hrsi := hleft.registers .rsi (by decide)
  have hrsp : (c₁.exec (.move .rsp .rsi)).rsp = (c.registers .rsi).toNat := by
    rw [← hrsi]
    exact congrArg UInt64.toNat (Cpu.registers_set_self c₁ .rsp (c₁.registers .rsi))
  have hmemory : (c₁.exec (.move .rsp .rsi)).memory = c₁.memory := rfl
  obtain ⟨hcontext, hrest⟩ := contextOf_ret (c := c₁.exec (.move .rsp .rsi)) (by rw [hrsp]; exact hnew)
  generalize ((c₁.exec (.move .rsp .rsi)).run (calleeSaved.reverse.map .pop)).ret = c₂ at hcontext hrest ⊢
  have hmemory' : c₂.memory = c₁.memory := by
    rw [hrest]
    exact hmemory
  refine ⟨?_, ?_, ?_, ?_⟩
  · rw [hmemory']
    exact hleft.pointer
  · rw [hmemory']
    exact hleft.frame
  · rw [hcontext, hmemory, hmemory', hrsp]
  · rw [hmemory']
    exact hleft.memory

end JordyOS.Kernel
