import JordyOS.Isolation.Interrupts

/-!
# Crossing between the rings

What each piece of `interrupts.asm` does to the processor.
-/

namespace JordyOS.Isolation

open Machine
open JordyOS.Kernel (calleeSaved contextOf Context)

/-! ## Tables -/

theorem toNat_and_mask (x mask : UInt64) (bits : ℕ) (hmask : mask.toNat = 2 ^ bits - 1) :
    (x &&& mask).toNat = x.toNat % 2 ^ bits := by
  rw [UInt64.toNat_and, hmask, Nat.and_two_pow_sub_one_eq_mod]

theorem toNat_shifted (x place : UInt64) (bits : ℕ) (hplace : place.toNat = bits) (hbits : bits < 64) :
    (x >>> place).toNat = x.toNat / 2 ^ bits := by
  rw [UInt64.toNat_shiftRight, hplace, Nat.mod_eq_of_lt hbits, Nat.shiftRight_eq_div_pow]

/-- A handler's address is taken apart and put together again. -/
theorem offset_parts (address : UInt64) : (address &&& 0xffff).toUInt16.toUInt64 |||
    (address >>> 16).toUInt16.toUInt64 <<< 16 ||| (address >>> 32).toUInt32.toUInt64 <<< 32 = address := by
  have hlt := address.toNat_lt
  have hlow : (address &&& 0xffff).toUInt16.toUInt64.toNat = address.toNat % 2 ^ 16 := by
    rw [UInt16.toNat_toUInt64, UInt64.toNat_toUInt16, toNat_and_mask address 0xffff 16 (by decide), Nat.mod_mod]
  have hmiddle : (address >>> 16).toUInt16.toUInt64.toNat = address.toNat / 2 ^ 16 % 2 ^ 16 := by
    rw [UInt16.toNat_toUInt64, UInt64.toNat_toUInt16, toNat_shifted address 16 16 (by decide) (by decide)]
  have hhigh : (address >>> 32).toUInt32.toUInt64.toNat = address.toNat / 2 ^ 32 := by
    rw [UInt32.toNat_toUInt64, UInt64.toNat_toUInt32, toNat_shifted address 32 32 (by decide) (by decide)]
    omega
  generalize (address &&& 0xffff).toUInt16.toUInt64 = low at *
  generalize (address >>> 16).toUInt16.toUInt64 = middle at *
  generalize (address >>> 32).toUInt32.toUInt64 = high at *
  have hfirst := toNat_field low middle 16 16 (by decide) (by decide) (by omega) (by omega)
  have hboth := toNat_field (low ||| middle <<< 16) high 32 32 (by decide) (by decide)
    (by rw [hfirst]; omega) (by omega)
  refine UInt64.toNat_inj.mp (hboth.trans ?_)
  rw [hfirst]
  omega

/-- The fields of the descriptor do not overlap. -/
theorem toNat_tssDescriptor (base : UInt64) : (tssDescriptor base).1.toNat = 103 + base.toNat % 2 ^ 16 * 2 ^ 16 +
    base.toNat / 2 ^ 16 % 2 ^ 8 * 2 ^ 32 + 0x89 * 2 ^ 40 + base.toNat / 2 ^ 24 % 2 ^ 8 * 2 ^ 56 := by
  have hlow : (base &&& 0xffff).toNat = base.toNat % 2 ^ 16 := toNat_and_mask base 0xffff 16 (by decide)
  have hmiddle : (base >>> 16 &&& 255).toNat = base.toNat / 2 ^ 16 % 2 ^ 8 := by
    rw [toNat_and_mask _ 255 8 (by decide), toNat_shifted base 16 16 (by decide) (by decide)]
  have hhigh : (base >>> 24 &&& 255).toNat = base.toNat / 2 ^ 24 % 2 ^ 8 := by
    rw [toNat_and_mask _ 255 8 (by decide), toNat_shifted base 24 24 (by decide) (by decide)]
  have hlimit : (UInt64.ofNat (tssSize - 1) &&& 0xffff).toNat = 103 := by decide
  have hrest : (UInt64.ofNat (tssSize - 1) >>> 16 &&& 15).toNat = 0 := by decide
  have htype : (0x89 : UInt64).toNat = 0x89 := by decide
  unfold tssDescriptor
  dsimp only
  generalize UInt64.ofNat (tssSize - 1) &&& 0xffff = limit at *
  generalize UInt64.ofNat (tssSize - 1) >>> 16 &&& 15 = rest at *
  generalize (0x89 : UInt64) = segment at *
  generalize base &&& 0xffff = low at *
  generalize base >>> 16 &&& 255 = middle at *
  generalize base >>> 24 &&& 255 = high at *
  have h₁ := toNat_field limit low 16 16 (by decide) (by decide) (by omega) (by omega)
  have h₂ := toNat_field (limit ||| low <<< 16) middle 32 32 (by decide) (by decide) (by rw [h₁]; omega)
    (by omega)
  have h₃ := toNat_field (limit ||| low <<< 16 ||| middle <<< 32) segment 40 40 (by decide) (by decide)
    (by rw [h₂, h₁]; omega) (by omega)
  have h₄ := toNat_field (limit ||| low <<< 16 ||| middle <<< 32 ||| segment <<< 40) rest 48 48 (by decide) (by decide)
    (by rw [h₃, h₂, h₁]; omega) (by omega)
  have h₅ := toNat_field (limit ||| low <<< 16 ||| middle <<< 32 ||| segment <<< 40 ||| rest <<< 48) high 56 56
    (by decide) (by decide) (by rw [h₄, h₃, h₂, h₁]; omega) (by omega)
  refine h₅.trans ?_
  rw [h₄, h₃, h₂, h₁]
  omega

/-- For every address of the segment and of the handlers: the processor reads from the tables what they are meant
to say.  Each vector leads to its own stub, in ring 0, through a gate that closes the processor for devices;
only the double fault changes to the stack of its own; and no port is open to a process. -/
theorem tables_decode (linkage : Linkage) (base : UInt64) (vector : UInt8) (port : UInt16) :
    (linkage.idt vector).offset = linkage.isolationIsrs vector ∧ (linkage.idt vector).present = true ∧
      (linkage.idt vector).isInterrupt = true ∧ (linkage.idt vector).selector = 0x18 ∧
      (linkage.idt vector).stackIndex = (if vector = 8 then 1 else 0) ∧
      (3 ≤ (linkage.idt vector).ring ↔ vector = 128) ∧
      descriptorBase (tssDescriptor base).1 (tssDescriptor base).2 = base.toNat ∧
      descriptorLimit (tssDescriptor base).1 = tssSize - 1 ∧ descriptorAccess (tssDescriptor base).1 = 0x89 ∧
      linkage.tss.guards (descriptorLimit (tssDescriptor base).1) port := by
  have hlt := base.toNat_lt
  have hhigh : (tssDescriptor base).2.toNat = base.toNat / 2 ^ 32 := toNat_shifted base 32 32 (by decide) (by decide)
  have hlimit : descriptorLimit (tssDescriptor base).1 = 103 := by
    unfold descriptorLimit
    rw [toNat_tssDescriptor]
    omega
  have htype : ((linkage.idt vector).type.toNat.testBit 7 = true ∧
      (linkage.idt vector).type.toNat % 16 = 14) ∧ (3 ≤ (linkage.idt vector).ring ↔ vector = 128) := by
    unfold Gate.ring Linkage.idt
    dsimp only
    by_cases h : vector = 128
    · rw [if_pos h]
      exact ⟨by decide, iff_of_true (by decide) h⟩
    · rw [if_neg h]
      exact ⟨by decide, iff_of_false (by decide) h⟩
  refine ⟨offset_parts _, htype.1.1, decide_eq_true htype.1.2, rfl, ?_, htype.2, ?_, hlimit, ?_, ?_⟩
  · unfold Gate.stackIndex Linkage.idt
    dsimp only
    by_cases h : vector = 8
    · rw [if_pos h, if_pos h]
      decide
    · rw [if_neg h, if_neg h]
      decide
  · unfold descriptorBase
    rw [toNat_tssDescriptor, hhigh]
    omega
  · unfold descriptorAccess
    rw [toNat_tssDescriptor]
    omega
  · unfold Tss.guards
    rw [hlimit]
    have hiomap : linkage.tss.iomap.toNat = 104 := (by decide : (UInt16.ofNat tssSize).toNat = 104)
    omega

namespace Linkage

/-! ## Entering -/

variable {c : Cpu}

/-- Nothing of the kernel is left in the floating-point state. -/
theorem run_clearFx (c : Cpu) : c.run clearFx = { c with fx := Fx.initial 0x1f80 } := by
  have hfilled := Fx.filled_fldz c.fx (n := 8) le_rfl
  have hfold := Cpu.run_pxor (({ c with fx := Fx.fldz^[8] c.fx.fninit } : Cpu).run [.fninit, .ldmxcsr 0x1f80])
    (List.finRange 16)
  have hfill : (c.run [.fninit]).run (List.replicate 8 .fldz) = { c with fx := Fx.fldz^[8] c.fx.fninit } :=
    Cpu.run_fldz (c.run [.fninit]) 8
  unfold clearFx
  rw [Cpu.run_append, Cpu.run_append, Cpu.run_append, hfill, hfold, Fx.foldl_clear]
  generalize Fx.fldz^[8] c.fx.fninit = fx at hfilled
  have hst : fx.st = fun _ ↦ 0 := funext fun i ↦ hfilled.st i (Nat.zero_le _)
  refine Cpu.ext rfl rfl rfl rfl rfl rfl rfl rfl rfl rfl (Fx.ext rfl rfl rfl hst rfl (funext fun i ↦ ?_)) rfl
  exact if_pos (List.mem_finRange i)

/-- What `isolation_enter` is called with: room on a stack of the kernel that the saved state does not overlap. -/
structure Entering (linkage : Linkage) (c : Cpu) : Prop where
  ring : c.ring = 0
  room : 88 ≤ c.rsp
  top : c.rsp + 8 < 2 ^ 64
  fx : linkage.savedKernelFx.toNat + 512 ≤ c.rsp - 88 ∨ c.rsp + 8 ≤ linkage.savedKernelFx.toNat
  pointer : linkage.savedKernelRsp.toNat + 8 ≤ c.rsp - 88 ∨ c.rsp + 8 ≤ linkage.savedKernelRsp.toNat

/-- The kernel's side of what `isolation_enter` saves, for the memory behind it. -/
structure Saved (linkage : Linkage) (c : Cpu) (m : Memory) : Prop where
  pointer : m.word linkage.savedKernelRsp.toNat = UInt64.ofNat (c.rsp - 48)
  frame : Kernel.frameContext m (c.rsp - 48) = ⟨c.memory.word c.rsp, c.rsp + 8, calleeSaved.map c.registers⟩
  image : ∀ k < 512, m (linkage.savedKernelFx.toNat + k) = c.fx.image k

/-- A process at its first instruction. -/
def launched (entry stack cr3 startup : UInt64) (fs gs : UInt16) (m : Memory) : Cpu where
  registers r := if r = .rdi then startup else if r = .rsp then stack else 0
  rip := entry
  rflags := 2
  cs := 0x2b
  ss := 0x23
  ds := 0x23
  es := 0x23
  fs := fs
  gs := gs
  cr3 := cr3
  fx := Fx.initial 0x1f80
  memory := m

/-- The processor between the saved state and what the process is to see. -/
def saving (linkage : Linkage) (c : Cpu) : Cpu :=
  (c.run (calleeSaved.map .push)).run linkage.saveCode

/-- `c'` has what `c` was called with, and the kernel's state is saved. -/
structure Saves (linkage : Linkage) (c c' : Cpu) : Prop where
  saved : linkage.Saved c c'.memory
  rsp : c'.rsp = c.rsp - 48
  cr3 : c'.cr3 = c.registers .rdx
  registers : ∀ r, r ≠ .rsp → r ≠ .rax → c'.registers r = c.registers r
  cs : c'.cs = c.cs
  fs : c'.fs = c.fs
  gs : c'.gs = c.gs
  memory : ∀ a, (a < c.rsp - 88 ∨ c.rsp ≤ a) →
    (a < linkage.savedKernelFx.toNat ∨ linkage.savedKernelFx.toNat + 512 ≤ a) →
    (a < linkage.savedKernelRsp.toNat ∨ linkage.savedKernelRsp.toNat + 8 ≤ a) → c'.memory a = c.memory a

theorem saving_saves {linkage : Linkage} (h : linkage.Entering c) : linkage.Saves c (linkage.saving c) := by
  have hroom := h.room
  have hfx := h.fx
  have hpointer := h.pointer
  have happart := linkage.savesApart
  have hlength : (calleeSaved.map c.registers).length = 6 := rfl
  have hpush : Cpu.Pushes (calleeSaved.map c.registers) c (c.run (calleeSaved.map .push)) := by
    rw [Cpu.run_push (by decide)]
    exact Cpu.pushAll_pushes (by omega)
  have hlow : (c.run (calleeSaved.map .push)).rsp + 48 = c.rsp := hpush.rsp
  have hfxSame : (c.run (calleeSaved.map .push)).fx = c.fx := by rw [hpush.rest]
  obtain ⟨hcs, hfs, hgs⟩ := Cpu.run_selectors c (calleeSaved.map .push ++ linkage.saveCode)
  rw [Cpu.run_append] at hcs hfs hgs
  have hrdx := hpush.registers .rdx (by decide)
  unfold saving
  generalize c.run (calleeSaved.map .push) = c₁ at *
  have hvalue : c₁.registers .rsp = UInt64.ofNat (c.rsp - 48) := by
    have hsame : c.rsp - 48 = c₁.rsp := by omega
    rw [hsame]
    exact (UInt64.ofNat_toNat).symm
  have hmemory : (c₁.run linkage.saveCode).memory =
      (c₁.memory.setWord linkage.savedKernelRsp.toNat (c₁.registers .rsp)).copy linkage.savedKernelFx.toNat
        c₁.fx.image 512 := rfl
  have hregisters : (c₁.run linkage.saveCode).registers =
      Function.update c₁.registers .rax (c₁.registers .rdx) := rfl
  have hcr3 : (c₁.run linkage.saveCode).cr3 = Function.update c₁.registers .rax (c₁.registers .rdx) .rax := rfl
  generalize c₁.run linkage.saveCode = c₂ at hmemory hregisters hcr3 hcs hfs hgs ⊢
  have hbyte (a : ℕ) (hout : a < linkage.savedKernelFx.toNat ∨ linkage.savedKernelFx.toNat + 512 ≤ a) :
      c₂.memory a = c₁.memory.setWord linkage.savedKernelRsp.toNat (c₁.registers .rsp) a := by
    rw [hmemory]
    exact hout.elim (Memory.copy_below _ _) (Memory.copy_above _ _)
  refine ⟨⟨?_, ?_, fun k hk ↦ ?_⟩, ?_, ?_, fun r hrsp hrax ↦ ?_, hcs, hfs, hgs, fun a ha hout hout' ↦ ?_⟩
  · rw [← hvalue]
    exact (Memory.word_congr fun a _ _ ↦ hbyte a (by omega)).trans (Memory.word_setWord ..)
  · have hsame : c.rsp - 48 = c₁.rsp := by omega
    rw [hsame]
    refine Kernel.frameContext_pushes hpush fun a _ _ ↦ ?_
    rw [hbyte a (by omega), Memory.setWord_of_outside _ (by omega)]
  · rw [hmemory, Memory.copy_inside _ _ hk, hfxSame]
  · have hsame : c₂.rsp = c₁.rsp := by
      unfold Cpu.rsp
      rw [hregisters]
      rfl
    omega
  · rw [hcr3, Function.update_self, hrdx]
  · rw [hregisters, Function.update_of_ne hrax]
    exact hpush.registers r hrsp
  · rw [hbyte a hout, Memory.setWord_of_outside _ hout']
    exact hpush.memory a (by omega)

/-- The data segments are loaded by way of `ax`. -/
theorem run_segments (c : Cpu) (selector : UInt16) : ∃ rax : UInt64, rax.toUInt16 = selector ∧
    c.run [.moveAx selector, .moveDs, .moveEs] =
      { c with registers := Function.update c.registers .rax rax, ds := selector, es := selector } := by
  have hax : (c.registers .rax &&& 0xffffffffffff0000 ||| selector.toUInt64).toUInt16 = selector :=
    Cpu.toUInt16_moveAx _ _
  exact ⟨_, hax, Cpu.ext rfl rfl rfl rfl rfl (Cpu.ax_moveAx c selector) (Cpu.ax_moveAx c selector) rfl rfl rfl rfl rfl⟩

theorem run_frameCode (c : Cpu) : c.run frameCode =
    ((c.run [.moveAx 0x23, .moveDs, .moveEs]).pushAll [0x23, c.registers .rsi, 2, 0x2b, c.registers .rdi]).exec
      (.move .rdi .rcx) := rfl

/-- A process starts with nothing but what `isolation_enter` is given, and what is in `fs` and `gs`. -/
theorem isolationEnter_launched {linkage : Linkage} (h : linkage.Entering c) :
    linkage.isolationEnter c = launched (c.registers .rdi) (c.registers .rsi) (c.registers .rdx)
      (c.registers .rcx) (opened c.fs) (opened c.gs) (linkage.isolationEnter c).memory ∧
    linkage.Saved c (linkage.isolationEnter c).memory ∧
    ∀ a, (a < c.rsp - 88 ∨ c.rsp ≤ a) →
      (a < linkage.savedKernelFx.toNat ∨ linkage.savedKernelFx.toNat + 512 ≤ a) →
      (a < linkage.savedKernelRsp.toNat ∨ linkage.savedKernelRsp.toNat + 8 ≤ a) →
      (linkage.isolationEnter c).memory a = c.memory a := by
  have hroom := h.room
  have htop := h.top
  have hfx := h.fx
  have hpointer := h.pointer
  have hsaves := saving_saves h
  have hcode : c.run linkage.isolationEnterCode =
      (((linkage.saving c).run clearFx).run frameCode).run (cleared.map .clear) := by
    unfold isolationEnterCode saving
    rw [Cpu.run_append, Cpu.run_append, Cpu.run_append, Cpu.run_append]
  unfold isolationEnter
  rw [hcode, run_clearFx, run_frameCode, Cpu.run_clear]
  generalize linkage.saving c = c₁ at hsaves ⊢
  obtain ⟨rax, -, hsegments⟩ := run_segments { c₁ with fx := Fx.initial 0x1f80 } 0x23
  rw [hsegments]
  clear hsegments hcode
  generalize hc₂ : ({ c₁ with
    registers := Function.update c₁.registers .rax rax, ds := 0x23, es := 0x23, fx := Fx.initial 0x1f80 } : Cpu) = c₂
  have hregister (r : Register) (hr : r ≠ .rax) : c₂.registers r = c₁.registers r := by
    rw [← hc₂]
    exact Function.update_of_ne hr ..
  have hmemory : c₂.memory = c₁.memory := by rw [← hc₂]
  have hrsp : c₂.rsp = c.rsp - 48 := (congrArg UInt64.toNat (hregister .rsp (by decide))).trans hsaves.rsp
  have hpush : Cpu.Pushes [0x23, c₁.registers .rsi, 2, 0x2b, c₁.registers .rdi] c₂
      (c₂.pushAll [0x23, c₁.registers .rsi, 2, 0x2b, c₁.registers .rdi]) :=
    Cpu.pushAll_pushes (by rw [hrsp]; change 8 * 5 ≤ _; omega)
  have hlow : _ + 40 = c₂.rsp := hpush.rsp
  generalize c₂.pushAll [0x23, c₁.registers .rsi, 2, 0x2b, c₁.registers .rdi] = c₃ at hpush hlow ⊢
  generalize hc₅ : ({ c₃.exec (.move .rdi .rcx) with
    registers := fun r ↦ if r ∈ cleared then 0 else (c₃.exec (.move .rdi .rcx)).registers r } : Cpu) = c₅
  have hrsp₅ : c₅.rsp = c₃.rsp := by
    rw [← hc₅]
    rfl
  have hmemory₅ : c₅.memory = c₃.memory := by
    rw [← hc₅]
    rfl
  have hword (i : ℕ) (value : UInt64)
      (hvalue : [0x23, c₁.registers .rsi, 2, 0x2b, c₁.registers .rdi].reverse[i]? = some value) :
      c₅.memory.word (c₅.rsp + 8 * i) = value := by
    rw [hrsp₅, hmemory₅]
    exact hpush.word i value hvalue
  have hiretq := Cpu.iretq_eq c₅ gdtStart 0x2b 0x23 (hword 0 _ rfl) (hword 1 _ rfl) (hword 2 _ rfl) (hword 3 _ rfl)
    (hword 4 _ rfl)
  have hrest : c₅ = { c₂ with registers := c₅.registers, memory := c₅.memory } := by
    rw [← hc₅, hpush.rest]
    rfl
  have hds : c₅.ds = 0x23 := by rw [hrest, ← hc₂]
  have hes : c₅.es = 0x23 := by rw [hrest, ← hc₂]
  have hfs : c₅.fs = c.fs := by rw [hrest, ← hc₂, ← hsaves.fs]
  have hgs : c₅.gs = c.gs := by rw [hrest, ← hc₂, ← hsaves.gs]
  have hring : c₅.ring = 0 := by
    unfold Cpu.ring
    rw [hrest, ← hc₂, hsaves.cs]
    exact h.ring
  have hopen (selector : UInt16) : Cpu.openTo gdtStart c₅.ring ((0x2b : UInt16).toNat % 4) selector = opened selector :=
    congrArg (Cpu.openTo gdtStart · 3 selector) hring
  have hdata : opened 0x23 = 0x23 := by decide
  have hfx₅ : c₅.fx = Fx.initial 0x1f80 := by rw [hrest, ← hc₂]
  have hcr3 : c₅.cr3 = c.registers .rdx := by
    rw [hrest, ← hc₂]
    exact hsaves.cr3
  have hrdi : c₅.registers .rdi = c.registers .rcx := by
    have hrcx := (hpush.registers .rcx (by decide)).trans (hregister .rcx (by decide))
    rw [← hsaves.registers .rcx (by decide) (by decide), ← hrcx, ← hc₅]
    rfl
  have hkept (a : ℕ) (ha : a < c.rsp - 88 ∨ c.rsp - 48 ≤ a) : (c₅.iretq gdtStart).memory a = c₁.memory a := by
    have hsame : (c₅.iretq gdtStart).memory = c₃.memory := hmemory₅
    rw [hsame, hpush.memory a (by omega), hmemory]
  refine ⟨?_, ⟨?_, ?_, fun k hk ↦ ?_⟩, fun a ha hfx hrsp ↦ ?_⟩
  · rw [hiretq, hopen, hopen, hopen, hopen, hds, hes, hfs, hgs, hdata]
    refine Cpu.ext (funext fun r ↦ ?_) ?_ rfl rfl rfl rfl rfl rfl rfl hcr3 hfx₅ rfl
    · change Function.update c₅.registers .rsp (c₁.registers .rsi) r =
        if r = .rdi then c.registers .rcx else if r = .rsp then c.registers .rsi else 0
      by_cases hstack : r = .rsp
      · rw [hstack, Function.update_self, if_neg (by decide), if_pos rfl]
        exact hsaves.registers .rsi (by decide) (by decide)
      · rw [Function.update_of_ne hstack, if_neg hstack]
        by_cases hstartup : r = .rdi
        · rw [hstartup, if_pos rfl, hrdi]
        · rw [if_neg hstartup, ← hc₅]
          have hcleared : r ∈ cleared := by
            cases r <;> first | exact absurd rfl hstack | exact absurd rfl hstartup | decide
          exact if_pos hcleared
    · exact hsaves.registers .rdi (by decide) (by decide)
  · exact (Memory.word_congr fun a _ _ ↦ hkept a (by omega)).trans hsaves.saved.pointer
  · exact (Kernel.frameContext_congr fun a _ _ ↦ hkept a (by omega)).trans hsaves.saved.frame
  · exact (hkept _ (by omega)).trans (hsaves.saved.image k hk)
  · rw [hkept a (by omega)]
    exact hsaves.memory a (by omega) hfx hrsp

/-! ## Interrupts -/

/-- The call of `isolation_interrupt`: a copy of the floating-point state lies below the frame. -/
structure Called (c c' : Cpu) : Prop where
  rbx : c'.registers .rbx = c.registers .rsp
  rdi : c'.registers .rdi = c.registers .rsp
  rsp : c'.rsp + 528 = c.rsp
  memory : c'.memory = c.memory.copy c'.rsp c.fx.image 512
  fx : c'.fx = c.fx.fninit.ldmxcsr 0x1f80
  rest : c' = { c with registers := c'.registers, ds := 0x10, es := 0x10, fx := c'.fx, memory := c'.memory }

theorem run_callCode (haligned : c.rsp % 16 = 0) (hroom : 528 ≤ c.rsp) : Called c (c.run callCode) := by
  have hle : (528 : UInt64) ≤ c.registers .rsp := UInt64.le_iff_toNat_le.mpr hroom
  have hsub : (c.registers .rsp - 528).toNat = c.rsp - 528 := UInt64.toNat_sub_of_le _ _ hle
  have hmask : c.registers .rsp - 528 &&& 0xfffffffffffffff0 = c.registers .rsp - 528 :=
    Cpu.and_boundary (by omega)
  have hframe : c.run [.move .rbx .rsp, .sub .rsp 528, .and .rsp 0xfffffffffffffff0] =
      (c.set .rbx (c.registers .rsp)).set .rsp (c.registers .rsp - 528) := by
    refine Cpu.ext ?_ rfl rfl rfl rfl rfl rfl rfl rfl rfl rfl rfl
    change Function.update (Function.update (Function.update c.registers .rbx (c.registers .rsp)) .rsp
      (c.registers .rsp - 528)) .rsp (c.registers .rsp - 528 &&& 0xfffffffffffffff0) = _
    rw [Function.update_idem, hmask]
    rfl
  have hsplit : c.run callCode = ((((c.run [.move .rbx .rsp, .sub .rsp 528, .and .rsp 0xfffffffffffffff0]).run
    [.fxsave .rsp, .fninit, .ldmxcsr 0x1f80]).run [.moveAx 0x10, .moveDs, .moveEs]).run [.move .rdi .rbx]) := rfl
  rw [hsplit, hframe]
  obtain ⟨rax, -, hsegments⟩ := run_segments (((c.set .rbx (c.registers .rsp)).set .rsp (c.registers .rsp - 528)).run
    [.fxsave .rsp, .fninit, .ldmxcsr 0x1f80]) 0x10
  rw [hsegments]
  have hrsp : (c.registers .rsp - 528).toNat + 528 = c.rsp := by omega
  exact ⟨rfl, rfl, hrsp, rfl, rfl, rfl⟩

/-- The stub makes up for the error code that the processor does not push. -/
theorem isr_spec {vector : UInt8} {error : Option UInt64} (h : error.isSome = pushesError vector) :
    error.toList ++ isr vector = [error.getD 0, vector.toUInt64] := by
  have hisr : isr vector = (if pushesError vector = true then [] else [0]) ++ [vector.toUInt64] := by
    unfold isr pushesError
    congr 1
    simp only [List.mem_cons, List.not_mem_nil, or_false, decide_eq_true_eq]
    split
    · next hnone => rw [if_neg (by tauto)]
    · next hsome => rw [if_pos (by tauto)]
  rw [hisr, ← h]
  cases error <;> rfl

variable (linkage : Linkage)

theorem ring_idt (vector : UInt8) : (linkage.idt vector).ring = if vector = 128 then 3 else 0 := by
  unfold idt Gate.ring
  by_cases h : vector = 128
  · rw [if_pos h, if_pos h]
    exact (by decide : (0xee : UInt8).toNat / 32 % 4 = 3)
  · rw [if_neg h, if_neg h]
    exact (by decide : (0x8e : UInt8).toNat / 32 % 4 = 0)

/-- Of the instructions that ask for a vector only `int 0x80` passes. -/
theorem taken_software (vector : UInt8) : (Cause.software vector).taken linkage.idt 3 =
    if vector = 128 then (128, none) else (13, some (8 * vector.toUInt64 + 2)) := by
  change (if 3 ≤ (linkage.idt vector).ring then _ else _) = _
  rw [ring_idt]
  by_cases h : vector = 128
  · rw [if_pos h, if_pos h, if_pos le_rfl, h]
  · rw [if_neg h, if_neg h, if_neg (by decide)]

theorem isSome_taken (cause : Cause) :
    (cause.taken linkage.idt 3).2.isSome = pushesError (cause.taken linkage.idt 3).1 := by
  cases cause with
  | software vector =>
    rw [taken_software]
    by_cases h : vector = 128
    · rw [if_pos h]
      exact (by decide : false = pushesError 128)
    · rw [if_neg h]
      exact (by decide : true = pushesError 13)
  | exception vector error =>
    change (if pushesError (UInt8.ofNat vector) = true then some error else none).isSome =
      pushesError (UInt8.ofNat vector)
    cases pushesError (UInt8.ofNat vector) <;> rfl

/-- The end of the stack on which a vector is handled. -/
def top (vector : UInt8) : ℕ :=
  if vector = 8 then linkage.faultStack.toNat + 8192 else linkage.entryStack.toNat + 65536

theorem top_spec (vector : UInt8) : linkage.top vector % 16 = 0 ∧ 8192 ≤ linkage.top vector ∧
    linkage.top vector < 2 ^ 64 := by
  have haligned := linkage.aligned
  have hbelow := linkage.below
  have hfaultAligned := linkage.faultAligned
  have hfaultBelow := linkage.faultBelow
  unfold top
  split
  · exact ⟨by omega, by omega, hfaultBelow⟩
  · exact ⟨by omega, by omega, hbelow⟩

theorem toNat_stackFor (hring : c.ring = 3) (vector : UInt8) :
    (c.stackFor (linkage.idt vector) linkage.tss).toNat = linkage.top vector := by
  have hbelow := linkage.below
  have hfaultBelow := linkage.faultBelow
  have hone : (1 : UInt8).toNat % 8 = 1 := by decide
  have hzero : (0 : UInt8).toNat % 8 = 0 := by decide
  have hentrySize : (65536 : UInt64).toNat = 65536 := by decide
  have hfaultSize : (8192 : UInt64).toNat = 8192 := by decide
  unfold Cpu.stackFor idt tss Gate.stackIndex top
  rw [hring]
  by_cases h : vector = 8
  · simp only [if_pos h, hone]
    rw [if_pos Nat.one_ne_zero, if_pos trivial, UInt64.toNat_add, hfaultSize, Nat.mod_eq_of_lt hfaultBelow]
  · simp only [if_neg h, hzero]
    rw [if_neg (not_not.mpr rfl), if_pos (by decide), if_pos trivial, UInt64.toNat_add, hentrySize,
      Nat.mod_eq_of_lt hbelow]

theorem rsp_redirect (hring : c.ring = 3) (vector : UInt8) :
    (c.redirect (linkage.idt vector) linkage.tss).rsp = linkage.top vector := by
  have htop := linkage.toNat_stackFor hring vector
  have hboundary := Cpu.and_boundary (htop ▸ (linkage.top_spec vector).1)
  calc (c.redirect (linkage.idt vector) linkage.tss).rsp
      = (c.stackFor (linkage.idt vector) linkage.tss &&& 0xfffffffffffffff0).toNat :=
        congrArg UInt64.toNat (Cpu.registers_set_self c .rsp _)
    _ = linkage.top vector := by rw [hboundary, htop]

/-- The processor at `jmp interrupt_common`. -/
structure Stubbed (linkage : Linkage) (vector : UInt8) (error : UInt64) (c c' : Cpu) : Prop where
  rsp : c'.rsp + 56 = linkage.top vector
  words : ∀ i value, (c.stopped ++ [error, vector.toUInt64]).reverse[i]? = some value →
    c'.memory.word (c'.rsp + 8 * i) = value
  registers : ∀ r, r ≠ .rsp → c'.registers r = c.registers r
  memory : ∀ a, a < c'.rsp ∨ linkage.top vector ≤ a → c'.memory a = c.memory a
  cs : c'.cs = 0x18
  fs : c'.fs = c.fs
  gs : c'.gs = c.gs
  cr3 : c'.cr3 = c.cr3
  fx : c'.fx = c.fx

theorem deliver_stubbed (hring : c.ring = 3) (vector : UInt8) {error : Option UInt64}
    (herror : error.isSome = pushesError vector) : Stubbed linkage vector (error.getD 0) c
      ((c.deliver (linkage.idt vector) linkage.tss error).run ((isr vector).map .pushValue)) := by
  obtain ⟨-, hroom, -⟩ := linkage.top_spec vector
  have hstart := linkage.rsp_redirect hring vector
  have hregisters (r : Register) (hr : r ≠ .rsp) :
      (c.redirect (linkage.idt vector) linkage.tss).registers r = c.registers r := Cpu.registers_set_of_ne _ _ hr
  have hmemory : (c.redirect (linkage.idt vector) linkage.tss).memory = c.memory := rfl
  have hcs : (c.redirect (linkage.idt vector) linkage.tss).cs = 0x18 := rfl
  have hfs : (c.redirect (linkage.idt vector) linkage.tss).fs = c.fs := rfl
  have hgs : (c.redirect (linkage.idt vector) linkage.tss).gs = c.gs := rfl
  have hcr3 : (c.redirect (linkage.idt vector) linkage.tss).cr3 = c.cr3 := rfl
  have hfx : (c.redirect (linkage.idt vector) linkage.tss).fx = c.fx := rfl
  have hdeliver : (c.deliver (linkage.idt vector) linkage.tss error).run ((isr vector).map .pushValue) =
      (c.redirect (linkage.idt vector) linkage.tss).pushAll (c.stopped ++ [error.getD 0, vector.toUInt64]) := by
    unfold Cpu.deliver
    rw [Cpu.run_pushValue, ← Cpu.pushAll_append, List.append_assoc, isr_spec herror]
  rw [hdeliver]
  generalize c.redirect (linkage.idt vector) linkage.tss = c₁ at hstart hregisters hmemory hcs hfs hgs hcr3 hfx ⊢
  have hstack : Cpu.Pushes (c.stopped ++ [error.getD 0, vector.toUInt64]) c₁
      (c₁.pushAll (c.stopped ++ [error.getD 0, vector.toUInt64])) :=
    Cpu.pushAll_pushes (by rw [hstart]; change 8 * 7 ≤ _; omega)
  generalize c₁.pushAll (c.stopped ++ [error.getD 0, vector.toUInt64]) = c₂ at hstack ⊢
  refine ⟨hstack.rsp.trans hstart, hstack.word, fun r hr ↦ (hstack.registers r hr).trans (hregisters r hr),
    fun a ha ↦ ?_, ?_, ?_, ?_, ?_, ?_⟩
  · rw [hstack.memory a (by rw [hstart]; exact ha), hmemory]
  · rw [hstack.rest, hcs]
  · rw [hstack.rest, hfs]
  · rw [hstack.rest, hgs]
  · rw [hstack.rest, hcr3]
  · rw [hstack.rest, hfx]

/-- `interrupt_common` in front of its call. -/
structure Prepared (c c' : Cpu) : Prop where
  rbx : c'.registers .rbx = c'.registers .rdi
  rdi : (c'.registers .rdi).toNat + 120 = c.rsp
  rsp : c'.rsp + 648 = c.rsp
  words : ∀ i value, (frameRegisters.map c.registers).reverse[i]? = some value →
    c'.memory.word (c'.rsp + 528 + 8 * i) = value
  image : ∀ k < 512, c'.memory (c'.rsp + k) = c.fx.image k
  memory : ∀ a, a < c'.rsp ∨ c.rsp ≤ a → c'.memory a = c.memory a
  cs : c'.cs = c.cs
  ds : c'.ds = 0x10
  es : c'.es = 0x10
  fs : c'.fs = c.fs
  gs : c'.gs = c.gs
  cr3 : c'.cr3 = c.cr3
  direction : c'.rflags.toNat.testBit 10 = false
  fx : c'.fx = c.fx.fninit.ldmxcsr 0x1f80

/-- `cld` -/
theorem testBit_direction (rflags : UInt64) : (rflags &&& 0xfffffffffffffbff).toNat.testBit 10 = false := by
  have hmask : (0xfffffffffffffbff : UInt64).toNat.testBit 10 = false := by decide
  rw [UInt64.toNat_and, Nat.testBit_and, hmask, Bool.and_false]

theorem run_interruptCommon (haligned : (c.rsp + 8) % 16 = 0) (hroom : 648 ≤ c.rsp) :
    Prepared c (c.run interruptCommon) := by
  have hframe : Cpu.Pushes (frameRegisters.map c.registers) (c.run [.cld])
      ((c.run [.cld]).run (frameRegisters.map .push)) := by
    rw [Cpu.run_push (by decide)]
    exact Cpu.pushAll_pushes (Nat.le_trans (by decide : 8 * 15 ≤ 648) hroom)
  have hcommon : c.run interruptCommon = ((c.run [.cld]).run (frameRegisters.map .push)).run callCode := by
    rw [interruptCommon, Cpu.run_append, Cpu.run_append]
  have hcld : (c.run [.cld]).rsp = c.rsp := rfl
  have hmemory : (c.run [.cld]).memory = c.memory := rfl
  obtain ⟨hcs, hfs, hgs⟩ := Cpu.run_selectors c interruptCommon
  have hcr3 : (c.run [.cld]).cr3 = c.cr3 := rfl
  have hfx : (c.run [.cld]).fx = c.fx := rfl
  have hdirection : (c.run [.cld]).rflags.toNat.testBit 10 = false := testBit_direction c.rflags
  rw [hcommon] at hcs hfs hgs ⊢
  clear hcommon
  generalize c.run [.cld] = c₀ at *
  have hlow : _ + 120 = c₀.rsp := hframe.rsp
  generalize c₀.run (frameRegisters.map .push) = c₁ at hframe hlow hcs hfs hgs ⊢
  have hcr3₁ : c₁.cr3 = c.cr3 := by rw [hframe.rest, hcr3]
  have hfx₁ : c₁.fx = c.fx := by rw [hframe.rest, hfx]
  have hcall := run_callCode (c := c₁) (by omega) (by omega)
  generalize c₁.run callCode = c₂ at hcall hcs hfs hgs ⊢
  have hlow₂ := hcall.rsp
  have hbyte (a : ℕ) (ha : a < c₂.rsp ∨ c₂.rsp + 512 ≤ a) : c₂.memory a = c₁.memory a := by
    rw [hcall.memory]
    exact ha.elim (Memory.copy_below _ _) (Memory.copy_above _ _)
  refine ⟨hcall.rbx.trans hcall.rdi.symm, ?_, by omega, fun i value hvalue ↦ ?_, fun k hk ↦ ?_, fun a ha ↦ ?_,
    hcs, ?_, ?_, hfs, hgs, ?_, ?_, by rw [hcall.fx, hfx₁]⟩
  · rw [hcall.rdi]
    exact hlow.trans hcld
  · rw [hlow₂]
    exact (Memory.word_congr fun a _ _ ↦ hbyte a (by omega)).trans (hframe.word i value hvalue)
  · rw [hcall.memory, Memory.copy_inside _ _ hk, hfx₁]
  · rw [hbyte a (by omega), hframe.memory a (by omega), hmemory]
  · rw [hcall.rest]
  · rw [hcall.rest]
  · rw [hcall.rest, hcr3₁]
  · rw [hcall.rest, hframe.rest]
    exact hdirection

/-- The processor at the call of `isolation_interrupt`. -/
structure Entered (linkage : Linkage) (vector : UInt8) (error : UInt64) (c c' : Cpu) : Prop where
  rdi : (c'.registers .rdi).toNat + 176 = linkage.top vector
  rbx : c'.registers .rbx = c'.registers .rdi
  rsp : c'.rsp + 704 = linkage.top vector
  words : ∀ i value, (frameWords vector error c)[i]? = some value →
    c'.memory.word ((c'.registers .rdi).toNat + 8 * i) = value
  image : ∀ k < 512, c'.memory (c'.rsp + k) = c.fx.image k
  memory : ∀ a, a < c'.rsp ∨ linkage.top vector ≤ a → c'.memory a = c.memory a
  cs : c'.cs = 0x18
  ds : c'.ds = 0x10
  es : c'.es = 0x10
  fs : c'.fs = c.fs
  gs : c'.gs = c.gs
  cr3 : c'.cr3 = c.cr3
  direction : c'.rflags.toNat.testBit 10 = false
  fx : c'.fx = c.fx.fninit.ldmxcsr 0x1f80

theorem frameWords_eq (vector : UInt8) (error : UInt64) (c : Cpu) : frameWords vector error c =
    (frameRegisters.map c.registers).reverse ++ (c.stopped ++ [error, vector.toUInt64]).reverse := rfl

theorem interrupted_entered (hring : c.ring = 3) (cause : Cause) :
    Entered linkage (cause.taken linkage.idt 3).1 ((cause.taken linkage.idt 3).2.getD 0) c
      (linkage.interrupted cause c) := by
  obtain ⟨haligned, hroom, -⟩ := linkage.top_spec (cause.taken linkage.idt 3).1
  have hstub := linkage.deliver_stubbed hring (cause.taken linkage.idt 3).1 (linkage.isSome_taken cause)
  have hcode : linkage.interrupted cause c =
      ((c.deliver (linkage.idt (cause.taken linkage.idt 3).1) linkage.tss (cause.taken linkage.idt 3).2).run
        ((isr (cause.taken linkage.idt 3).1).map .pushValue)).run interruptCommon := by
    unfold interrupted
    rw [hring]
  rw [hcode]
  generalize (cause.taken linkage.idt 3).1 = vector at *
  generalize (cause.taken linkage.idt 3).2 = error at *
  generalize (c.deliver (linkage.idt vector) linkage.tss error).run ((isr vector).map .pushValue) = c₁ at hstub ⊢
  have hlow := hstub.rsp
  have hprepared := run_interruptCommon (c := c₁) (by omega) (by omega)
  generalize c₁.run interruptCommon = c₂ at hprepared ⊢
  have hrdi := hprepared.rdi
  have hrsp := hprepared.rsp
  have hsaved : frameRegisters.map c₁.registers = frameRegisters.map c.registers :=
    List.map_congr_left fun r hr ↦ hstub.registers r (ne_of_mem_of_not_mem hr (by decide))
  refine ⟨by omega, hprepared.rbx, by omega, fun i value hvalue ↦ ?_, fun k hk ↦ ?_, fun a ha ↦ ?_,
    hprepared.cs.trans hstub.cs, hprepared.ds, hprepared.es, hprepared.fs.trans hstub.fs,
    hprepared.gs.trans hstub.gs, hprepared.cr3.trans hstub.cr3, hprepared.direction, by rw [hprepared.fx, hstub.fx]⟩
  · have hlength : (frameRegisters.map c.registers).reverse.length = 15 := rfl
    rw [frameWords_eq, List.getElem?_append, hlength] at hvalue
    by_cases hi : i < 15
    · rw [if_pos hi, ← hsaved] at hvalue
      have hplace : (c₂.registers .rdi).toNat + 8 * i = c₂.rsp + 528 + 8 * i := by omega
      rw [hplace]
      exact hprepared.words i value hvalue
    · rw [if_neg hi] at hvalue
      have hplace : (c₂.registers .rdi).toNat + 8 * i = c₁.rsp + 8 * (i - 15) := by omega
      rw [hplace]
      exact (Memory.word_congr fun a _ _ ↦ hprepared.memory a (by omega)).trans (hstub.words (i - 15) value hvalue)
  · rw [hprepared.image k hk, hstub.fx]
  · rw [hprepared.memory a (by omega), hstub.memory a (by omega)]

/-! ## Returning -/

/-- The way back in front of `iretq`. -/
structure Restored (c c' : Cpu) : Prop where
  rsp : c'.rsp = (c.registers .rbx).toNat + 136
  registers : ∀ i r, frameRegisters.reverse[i]? = some r →
    c'.registers r = c.memory.word ((c.registers .rbx).toNat + 8 * i)
  rest : c' = { c with
    registers := c'.registers, ds := 0x23, es := 0x23, fx := Fx.ofImage (c.memory.shift c.rsp) }

theorem run_returnCode (hroom : (c.registers .rbx).toNat + 136 < 2 ^ 64) : Restored c (c.run returnCode) := by
  obtain ⟨rax, -, hsegments⟩ := run_segments (c.run [.fxrstor .rsp]) 0x23
  have hcode : c.run returnCode = ((((c.run [.fxrstor .rsp]).run [.moveAx 0x23, .moveDs, .moveEs]).run
      [.move .rsp .rbx]).run (frameRegisters.reverse.map .pop)).run [.add .rsp 16] := by
    rw [returnCode, Cpu.run_append, Cpu.run_append]
    rfl
  rw [hcode, hsegments]
  generalize hc₁ : ({ c.run [.fxrstor .rsp] with
    registers := Function.update (c.run [.fxrstor .rsp]).registers .rax rax, ds := 0x23, es := 0x23 } : Cpu).run
      [.move .rsp .rbx] = c₁
  have hrsp₁ : c₁.rsp = (c.registers .rbx).toNat := by
    rw [← hc₁]
    rfl
  have hrest₁ : c₁ = { c with
      registers := c₁.registers, ds := 0x23, es := 0x23, fx := Fx.ofImage (c.memory.shift c.rsp) } := by
    rw [← hc₁]
    rfl
  clear hc₁ hcode hsegments
  have hpop : Cpu.Restores frameRegisters.reverse c₁ (c₁.run (frameRegisters.reverse.map .pop)) := by
    refine Cpu.run_pop (by decide) (by decide) ?_
    rw [hrsp₁]
    change _ + 8 * 15 < 2 ^ 64
    omega
  have hrsp₂ : (c₁.run (frameRegisters.reverse.map .pop)).rsp = c₁.rsp + 120 := hpop.rsp
  generalize c₁.run (frameRegisters.reverse.map .pop) = c₂ at hpop hrsp₂ ⊢
  have hmemory : c₁.memory = c.memory := by rw [hrest₁]
  refine ⟨?_, fun i r hr ↦ ?_, ?_⟩
  · have hsize : (16 : UInt64).toNat = 16 := by decide
    calc (c₂.run [.add .rsp 16]).rsp = (c₂.registers .rsp + 16).toNat :=
          congrArg UInt64.toNat (Cpu.registers_set_self c₂ .rsp _)
      _ = c₂.rsp + 16 := by
          rw [UInt64.toNat_add, hsize]
          refine Nat.mod_eq_of_lt ?_
          change c₂.rsp + 16 < 2 ^ 64
          omega
      _ = (c.registers .rbx).toNat + 136 := by omega
  · have hne : r ≠ .rsp := by
      rintro rfl
      exact absurd (List.mem_of_getElem? hr) (by decide)
    rw [← hrsp₁, ← hmemory, ← hpop.restored i r hr]
    exact Cpu.registers_set_of_ne c₂ _ hne
  · have hrest₂ : c₂.run [.add .rsp 16] = { c₂ with registers := (c₂.run [.add .rsp 16]).registers } := rfl
    rw [hrest₂, hpop.rest, hrest₁]

/-! ## Answers -/

variable {linkage : Linkage} {vector : UInt8} {error : UInt64} {c₁ c₂ : Cpu} {data : ℕ → Prop}

/-- The handler of an interrupt in ring 3 decides by the vector and the number of the call. -/
theorem Entered.isolationInterrupt (h : Entered linkage vector error c c₁) (hring : c.ring = 3) :
    isolationInterrupt true c₁.memory (c₁.registers .rdi).toNat =
      if vector = 8 then none else if vector = 128 ∧ c.registers .rax ≠ 0 then some 0 else some 1 := by
  have hvector : c₁.memory.word ((c₁.registers .rdi).toNat + 120) = vector.toUInt64 := h.words 15 _ rfl
  have hrax : c₁.memory.word ((c₁.registers .rdi).toNat + 112) = c.registers .rax := h.words 14 _ rfl
  have hcs : c₁.memory.word ((c₁.registers .rdi).toNat + 144) = c.cs.toUInt64 := h.words 18 _ rfl
  have hmask : c.cs.toUInt64 &&& 3 = 3 := by
    have hthree : (3 : UInt64).toNat = 2 ^ 2 - 1 := by decide
    refine UInt64.toNat_inj.mp ?_
    rw [UInt64.toNat_and, hthree, Nat.and_two_pow_sub_one_eq_mod]
    exact hring
  have height : vector.toUInt64 = 8 ↔ vector = 8 :=
    ⟨fun heq ↦ UInt8.toUInt64_inj.mp heq, fun heq ↦ by rw [heq]; rfl⟩
  have hcall : vector.toUInt64 = 128 ↔ vector = 128 :=
    ⟨fun heq ↦ UInt8.toUInt64_inj.mp heq, fun heq ↦ by rw [heq]; rfl⟩
  unfold Isolation.isolationInterrupt
  rw [hvector, hrax, hcs, hmask]
  simp only [height, hcall, ne_eq, not_true_eq_false, false_or, reduceCtorEq]
  split_ifs <;> first | rfl | simp_all

theorem top_of_ne (linkage : Linkage) (h : vector ≠ 8) :
    linkage.top vector = linkage.entryStack.toNat + 65536 := if_neg h

/-- A call that is answered goes on with the state of the process, except for the answer in `rax` and the data
segments. -/
theorem answered_resumes (h : Entered linkage vector error c c₁) (hring : c.ring = 3) (hvector : vector ≠ 8)
    (hhandles : Handles linkage data c₁ c₂) (hzero : (c₂.registers .rax).toUInt32 = 0) :
    linkage.answered c₂ = { c with
      registers := Function.update c.registers .rax (c₂.memory.word ((c₁.registers .rdi).toNat + 112))
      ds := 0x23, es := 0x23, fs := opened c.fs, gs := opened c.gs, memory := c₂.memory } := by
  have hrdi := h.rdi
  have hrsp := h.rsp
  obtain ⟨-, hroom, htop⟩ := linkage.top_spec vector
  have hend := top_of_ne linkage hvector
  have hrbx : (c₂.registers .rbx).toNat = (c₁.registers .rdi).toNat := by
    rw [hhandles.saved .rbx (by decide), h.rbx]
  have hanswered : linkage.answered c₂ = (c₂.run returnCode).iretq gdtStart := if_neg (not_not.mpr hzero)
  have hrestored := run_returnCode (c := c₂) (by omega)
  rw [hanswered]
  generalize c₂.run returnCode = c₃ at hrestored ⊢
  have hmemory : c₃.memory = c₂.memory := by rw [hrestored.rest]
  have hrsp₃ : c₃.rsp = (c₁.registers .rdi).toNat + 136 := by rw [hrestored.rsp, hrbx]
  have hword (i : ℕ) {value : UInt64} (hvalue : (frameWords vector error c)[i]? = some value) (hi : i ≠ 14)
      (hlast : i < 22) : c₂.memory.word ((c₁.registers .rdi).toNat + 8 * i) = value :=
    (Memory.word_congr fun a _ _ ↦ hhandles.stack a (by omega) (by omega) (by omega)).trans (h.words i value hvalue)
  have hpopped (k : ℕ) {value : UInt64} (hvalue : (frameWords vector error c)[17 + k]? = some value) (hk : k < 5) :
      c₃.memory.word (c₃.rsp + 8 * k) = value := by
    have hplace : c₃.rsp + 8 * k = (c₁.registers .rdi).toNat + 8 * (17 + k) := by omega
    rw [hplace, hmemory]
    exact hword (17 + k) hvalue (by omega) (by omega)
  have hiretq := Cpu.iretq_eq c₃ gdtStart c.cs c.ss (hpopped 0 rfl (by decide)) (hpopped 1 rfl (by decide))
    (hpopped 2 rfl (by decide)) (hpopped 3 rfl (by decide)) (hpopped 4 rfl (by decide))
  have hinner : c₃.ring = 0 := by
    unfold Cpu.ring
    rw [hrestored.rest, hhandles.cs, h.cs]
    rfl
  have hopen (selector : UInt16) : Cpu.openTo gdtStart c₃.ring (c.cs.toNat % 4) selector = opened selector := by
    have houter : c.cs.toNat % 4 = 3 := hring
    rw [hinner, houter]
    rfl
  have hdata : opened 0x23 = 0x23 := by decide
  have hds : c₃.ds = 0x23 := by rw [hrestored.rest]
  have hes : c₃.es = 0x23 := by rw [hrestored.rest]
  have hfs : c₃.fs = c.fs := by rw [hrestored.rest, hhandles.fs, h.fs]
  have hgs : c₃.gs = c.gs := by rw [hrestored.rest, hhandles.gs, h.gs]
  have hcr3 : c₃.cr3 = c.cr3 := by rw [hrestored.rest, hhandles.cr3, h.cr3]
  have hfx : c₃.fx = c.fx := by
    rw [hrestored.rest]
    refine Fx.ofImage_image c.fx fun k hk ↦ ?_
    rw [Memory.shift_apply, hhandles.rsp, hhandles.stack _ (by omega) (by omega) (by omega)]
    exact h.image k hk
  have hregisters : Function.update c₃.registers .rsp (c.registers .rsp) =
      Function.update c.registers .rax (c₂.memory.word ((c₁.registers .rdi).toNat + 112)) := by
    funext r
    by_cases hstack : r = .rsp
    · rw [hstack, Function.update_self, Function.update_of_ne (by decide)]
    · rw [Function.update_of_ne hstack]
      by_cases hanswer : r = .rax
      · rw [hanswer, Function.update_self, hrestored.registers 14 .rax rfl, hrbx]
      · have hmem : r ∈ frameRegisters.reverse := by
          cases r <;> first | exact absurd rfl hstack | decide
        obtain ⟨i, hi⟩ := List.getElem?_of_mem hmem
        have hlast : i < 15 := (List.getElem?_eq_some_iff.mp hi).1
        have hplace : i ≠ 14 := by
          rintro rfl
          exact hanswer (Option.some.inj hi).symm
        rw [Function.update_of_ne hanswer, hrestored.registers i r hi, hrbx]
        refine hword i ?_ hplace (by omega)
        rw [frameWords_eq, ← List.map_reverse, List.getElem?_append_left hlast, List.getElem?_map, hi]
        rfl
  rw [hiretq, hopen, hopen, hopen, hopen, hds, hes, hfs, hgs, hdata]
  change (⟨Function.update c₃.registers .rsp (c.registers .rsp), c.rip, c.rflags, c.cs, c.ss, 0x23, 0x23, opened c.fs,
    opened c.gs, c₃.cr3, c₃.fx, c₃.memory⟩ : Cpu) = _
  rw [hregisters, hcr3, hfx, hmemory]

end Linkage

end JordyOS.Isolation
