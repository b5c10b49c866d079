import JordyOS.Isolation.Crossing

/-!
# The life of a process

A process runs in ring 3 and is interrupted, any number of times, until an interrupt ends it.  Whatever it does,
the kernel comes back from `isolation_enter` as from any function.
-/

namespace JordyOS.Isolation

open Machine
open JordyOS.Kernel (calleeSaved contextOf)

namespace Linkage

/-! ## Runs -/

variable {linkage : Linkage} {data : ℕ → Prop} {c c₂ : Cpu}

/-! ## One interrupt -/

theorem taken_exception_ne (vector : Fin 32) : UInt8.ofNat vector ≠ 128 := by
  intro heq
  have hlt := vector.isLt
  have hvalue : (UInt8.ofNat (vector : ℕ)).toNat = 128 := congrArg UInt8.toNat heq
  rw [UInt8.toNat_ofNat_of_lt' (by change (vector : ℕ) < 256; omega)] at hvalue
  omega

/-- The vector of a system call is taken for `int 0x80` only. -/
theorem taken_iff (linkage : Linkage) (cause : Cause) :
    (cause.taken linkage.idt 3).1 = 128 ↔ cause = .software 128 := by
  cases cause with
  | software vector =>
    rw [taken_software]
    by_cases h : vector = 128
    · rw [if_pos h, h]
      simp
    · rw [if_neg h]
      simp [h]
  | exception vector error =>
    refine iff_of_false (taken_exception_ne vector) ?_
    rintro ⟨⟩

/-- The answer tells a call that is served from anything else. -/
theorem answer_spec (hring : c.ring = 3) {cause : Cause}
    (h : Handles linkage data (linkage.interrupted cause c) c₂) : (cause.taken linkage.idt 3).1 ≠ 8 ∧
      ((c₂.registers .rax).toUInt32 = 0 ↔ cause = .software 128 ∧ c.registers .rax ≠ 0) := by
  have hanswer := (linkage.interrupted_entered hring cause).isolationInterrupt hring
  rw [h.answer] at hanswer
  have hfault : (cause.taken linkage.idt 3).1 ≠ 8 := by
    intro hfault
    rw [if_pos hfault] at hanswer
    cases hanswer
  refine ⟨hfault, ?_⟩
  rw [← taken_iff linkage]
  rw [if_neg hfault] at hanswer
  by_cases hcall : (cause.taken linkage.idt 3).1 = 128 ∧ c.registers .rax ≠ 0
  · rw [if_pos hcall] at hanswer
    exact iff_of_true (Option.some.inj hanswer) hcall
  · rw [if_neg hcall] at hanswer
    rw [Option.some.inj hanswer]
    exact iff_of_false (by decide) hcall

/-- The least that a handler can do. -/
theorem handles_set {answer : UInt64}
    (h : isolationInterrupt true c.memory (c.registers .rdi).toNat = some answer.toUInt32) :
    Handles linkage data c (c.set .rax answer) where
  rsp := congrArg UInt64.toNat (Cpu.registers_set_of_ne c answer (by decide))
  saved r hr := Cpu.registers_set_of_ne c answer (ne_of_mem_of_not_mem hr (by decide))
  cs := rfl
  fs := rfl
  gs := rfl
  cr3 := rfl
  stack _ _ _ _ := rfl
  memory _ _ _ := rfl
  answer := by rw [h, Cpu.registers_set_self]

/-- No code of the kernel gives `fs` or `gs` another value. -/
theorem leaveUser_fs_gs (linkage : Linkage) (c : Cpu) :
    (linkage.leaveUser c).fs = c.fs ∧ (linkage.leaveUser c).gs = c.gs := by
  have hret (d : Cpu) : d.ret.fs = d.fs ∧ d.ret.gs = d.gs := ⟨rfl, rfl⟩
  obtain ⟨-, hfs, hgs⟩ := Cpu.run_selectors c linkage.leaveUserCode
  unfold leaveUser
  exact ⟨(hret _).1.trans hfs, (hret _).2.trans hgs⟩

/-- `int 0x80` with a number in `rax`, answered by the least handler. -/
def calling (linkage : Linkage) (number answer : UInt64) (c : Cpu) : Cpu :=
  (linkage.interrupted (.software 128) (c.set .rax number)).set .rax answer

theorem calling_handles (hring : c.ring = 3) {number answer : UInt64}
    (hanswer : answer.toUInt32 = if number ≠ 0 then 0 else 1) :
    Handles linkage data (linkage.interrupted (.software 128) (c.set .rax number))
      (linkage.calling number answer c) := by
  have hring' : (c.set .rax number).ring = 3 := hring
  refine handles_set ?_
  rw [(linkage.interrupted_entered hring' (.software 128)).isolationInterrupt hring', taken_software, if_pos rfl,
    Cpu.registers_set_self, hanswer]
  by_cases hnumber : number = 0
  · simp [hnumber]
  · simp [hnumber]

end Linkage

def exampleLinkage : Linkage where
  savedKernelFx := 0x30000
  savedKernelRsp := 0x30200
  entryStack := 0x40000
  faultStack := 0x50000
  isolationIsrs vector := 0x20000 + 16 * vector.toUInt64
  aligned := by decide
  below := by decide
  faultAligned := by decide
  faultBelow := by decide
  fxBelow := by decide
  savesApart := by decide
  fxApart := by decide
  rspApart := by decide

/-- At the call of `isolation_enter`, after a process that has loaded `gs`. -/
def exampleKernel : Cpu where
  registers
    | .rdi => 0x40000000
    | .rsi => 0x40842000
    | .rdx => 0x100000
    | .rcx => 0x40800000
    | .rsp => 0x8ff00
    | _ => 7
  rip := 0x10100
  rflags := 2
  cs := 0x18
  ss := 0x10
  ds := 0x10
  es := 0x10
  fs := 0x10
  gs := 0x23
  cr3 := 0x80000
  fx := Fx.initial 0x1f80
  memory := Memory.zero

/-- A process that the kernel has entered. -/
def exampleProcess : Cpu := exampleLinkage.isolationEnter exampleKernel

theorem entering_example : exampleLinkage.Entering exampleKernel := by
  refine ⟨?_, ?_, ?_, ?_, ?_⟩ <;> decide +kernel

theorem ring_exampleProcess : exampleProcess.ring = 3 := by
  unfold exampleProcess
  rw [(Linkage.isolationEnter_launched entering_example).1]
  rfl

namespace Linkage

/-- For every state of the kernel: what a process sees in its registers at its first instruction depends on the
four arguments of `isolation_enter` only, apart from `fs` and `gs`: there it finds what the kernel has, which is
what the process before it loaded, unless the segment is closed to ring 3.  The kernel's memory changes only in
what is saved and below its stack pointer. -/
theorem process_starts (linkage : Linkage) (c : Cpu) (hentering : linkage.Entering c) :
    linkage.isolationEnter c = launched (c.registers .rdi) (c.registers .rsi) (c.registers .rdx)
        (c.registers .rcx) (opened c.fs) (opened c.gs) (linkage.isolationEnter c).memory ∧
      ∀ a, (a < c.rsp - 88 ∨ c.rsp ≤ a) →
        (a < linkage.savedKernelFx.toNat ∨ linkage.savedKernelFx.toNat + 512 ≤ a) →
        (a < linkage.savedKernelRsp.toNat ∨ linkage.savedKernelRsp.toNat + 8 ≤ a) →
        (linkage.isolationEnter c).memory a = c.memory a := by
  obtain ⟨hlaunched, -, hmemory⟩ := isolationEnter_launched hentering
  exact ⟨hlaunched, hmemory⟩

theorem process_starts_example : exampleLinkage.isolationEnter exampleKernel =
      launched 0x40000000 0x40842000 0x100000 0x40800000 0 0x23
        (exampleLinkage.isolationEnter exampleKernel).memory ∧
    ∀ a, (a < exampleKernel.rsp - 88 ∨ exampleKernel.rsp ≤ a) →
      (a < exampleLinkage.savedKernelFx.toNat ∨ exampleLinkage.savedKernelFx.toNat + 512 ≤ a) →
      (a < exampleLinkage.savedKernelRsp.toNat ∨ exampleLinkage.savedKernelRsp.toNat + 8 ≤ a) →
      (exampleLinkage.isolationEnter exampleKernel).memory a = exampleKernel.memory a :=
  process_starts exampleLinkage exampleKernel entering_example

/-- For every state in ring 3 and every service: the handler finds the call in its frame, an aligned stack and
clean flags and floating-point state; and whatever it does, the process goes on as it was, except for the answer
in `rax`, the selectors of `ds` and `es`, and a null selector in `fs` or `gs`, which becomes zero.  Any other cause
ends the process, and so does the call for it, with `fs` and `gs` as the process leaves them; after a double fault
no handler returns. -/
theorem interrupt_resumes (linkage : Linkage) (data : ℕ → Prop) (c c₂ : Cpu) (cause : Cause) (hring : c.ring = 3)
    (hhandles : Handles linkage data (linkage.interrupted cause c) c₂) :
    let c₁ := linkage.interrupted cause c
    let frame := (c₁.registers .rdi).toNat
    interruptFrame c₁.memory frame = ⟨c.registers .rax, c.registers .rdi, c.registers .rsi, c.registers .rdx,
        c.registers .rcx, c.registers .r8⟩ ∧
      c₁.rsp % 16 = 0 ∧ c₁.rflags.toNat.testBit 10 = false ∧ c₁.fx.control = 0x37f ∧ c₁.fx.tag = 0 ∧
      c₁.fx.mxcsr = 0x1f80 ∧
      (cause = .software 128 ∧ c.registers .rax ≠ 0 → linkage.answered c₂ = { c with
        registers := Function.update c.registers .rax (c₂.memory.word (frame + 112))
        ds := 0x23, es := 0x23, fs := opened c.fs, gs := opened c.gs, memory := c₂.memory }) ∧
      (¬ (cause = .software 128 ∧ c.registers .rax ≠ 0) → linkage.answered c₂ = linkage.leaveUser c₂ ∧
        (linkage.leaveUser c₂).fs = c.fs ∧ (linkage.leaveUser c₂).gs = c.gs) := by
  intro c₁ frame
  have hentered := linkage.interrupted_entered hring cause
  obtain ⟨hvector, hanswer⟩ := answer_spec hring hhandles
  have halign := (linkage.top_spec (cause.taken linkage.idt 3).1).1
  have hrsp : c₁.rsp + 704 = linkage.top (cause.taken linkage.idt 3).1 := hentered.rsp
  refine ⟨?_, by omega, hentered.direction, ?_, ?_, ?_, fun hcall ↦ ?_, fun hcall ↦ ?_⟩
  · have hword (i : ℕ) {value : UInt64} (hvalue : (frameWords (cause.taken linkage.idt 3).1
        ((cause.taken linkage.idt 3).2.getD 0) c)[i]? = some value) : c₁.memory.word (frame + 8 * i) = value :=
      hentered.words i value hvalue
    unfold interruptFrame
    rw [hword 14 rfl, hword 9 rfl, hword 8 rfl, hword 11 rfl, hword 12 rfl, hword 7 rfl]
  · rw [hentered.fx]
    rfl
  · rw [hentered.fx]
    rfl
  · rw [hentered.fx]
    rfl
  · exact answered_resumes hentered hring hvector hhandles (hanswer.mpr hcall)
  · obtain ⟨hfs, hgs⟩ := leaveUser_fs_gs linkage c₂
    refine ⟨if_pos (mt hanswer.mp hcall), ?_, ?_⟩
    · rw [hfs, hhandles.fs, hentered.fs]
    · rw [hgs, hhandles.gs, hentered.gs]

theorem interrupt_resumes_example :
    let c := exampleProcess.set .rax 3
    let c₁ := exampleLinkage.interrupted (.software 128) c
    let frame := (c₁.registers .rdi).toNat
    interruptFrame c₁.memory frame = ⟨c.registers .rax, c.registers .rdi, c.registers .rsi, c.registers .rdx,
        c.registers .rcx, c.registers .r8⟩ ∧
      c₁.rsp % 16 = 0 ∧ c₁.rflags.toNat.testBit 10 = false ∧ c₁.fx.control = 0x37f ∧ c₁.fx.tag = 0 ∧
      c₁.fx.mxcsr = 0x1f80 ∧
      (Cause.software 128 = .software 128 ∧ c.registers .rax ≠ 0 →
        exampleLinkage.answered (exampleLinkage.calling 3 0 exampleProcess) = { c with
          registers := Function.update c.registers .rax
            ((exampleLinkage.calling 3 0 exampleProcess).memory.word (frame + 112))
          ds := 0x23, es := 0x23, fs := opened c.fs, gs := opened c.gs
          memory := (exampleLinkage.calling 3 0 exampleProcess).memory }) ∧
      (¬ (Cause.software 128 = .software 128 ∧ c.registers .rax ≠ 0) →
        exampleLinkage.answered (exampleLinkage.calling 3 0 exampleProcess) =
            exampleLinkage.leaveUser (exampleLinkage.calling 3 0 exampleProcess) ∧
          (exampleLinkage.leaveUser (exampleLinkage.calling 3 0 exampleProcess)).fs = c.fs ∧
          (exampleLinkage.leaveUser (exampleLinkage.calling 3 0 exampleProcess)).gs = c.gs) :=
  interrupt_resumes exampleLinkage (fun _ ↦ False) (exampleProcess.set .rax 3)
    (exampleLinkage.calling 3 0 exampleProcess) (.software 128) ring_exampleProcess
    (calling_handles ring_exampleProcess (by decide))

/-! ## A whole life -/

/-- The kernel's stack and what is saved, behind a call of `isolation_enter` in `k`. -/
def Reserved (linkage : Linkage) (k : Cpu) (a : ℕ) : Prop :=
  (k.rsp - 48 ≤ a ∧ a < k.rsp + 8) ∨
    (linkage.savedKernelFx.toNat ≤ a ∧ a < linkage.savedKernelFx.toNat + 512) ∨
    (linkage.savedKernelRsp.toNat ≤ a ∧ a < linkage.savedKernelRsp.toNat + 8)

theorem Saved.congr {linkage : Linkage} {k : Cpu} {m n : Memory} (h : linkage.Saved k m) (hroom : 48 ≤ k.rsp)
    (hsame : ∀ a, linkage.Reserved k a → n a = m a) : linkage.Saved k n where
  pointer := (Memory.word_congr fun a hlow hhigh ↦ hsame a (Or.inr (Or.inr ⟨hlow, hhigh⟩))).trans h.pointer
  frame := (Kernel.frameContext_congr fun a hlow hhigh ↦
    hsame a (Or.inl ⟨hlow, by omega⟩)).trans h.frame
  image i hi := (hsame _ (Or.inr (Or.inl ⟨by omega, by omega⟩))).trans (h.image i hi)

variable {linkage : Linkage} {data : ℕ → Prop}

/-- What a process and the services for it must not write to. -/
structure Spares (linkage : Linkage) (data : ℕ → Prop) (k : Cpu) : Prop where
  reserved : ∀ a, linkage.Reserved k a → ¬ data a
  apart : linkage.entryStack.toNat + 65536 ≤ k.rsp - 48 ∨ k.rsp + 8 ≤ linkage.entryStack.toNat

theorem Spares.outside {k : Cpu} (h : linkage.Spares data k) (hroom : 48 ≤ k.rsp) {a : ℕ}
    (ha : linkage.Reserved k a) : a < linkage.entryStack.toNat ∨ linkage.entryStack.toNat + 65536 ≤ a := by
  have happart := h.apart
  have hfx := linkage.fxApart
  have hrsp := linkage.rspApart
  rcases ha with ha | ha | ha
  · omega
  · omega
  · omega

end Linkage

end JordyOS.Isolation
