import JordyOS.Machine.FloatingPoint

/-!
# A processor

The part of x86-64 that code between two stacks is made of.  Addresses in the kernel are physical ones.
Of the flags only the direction flag is followed; no instruction here reads the others.
-/

namespace JordyOS.Machine

namespace Memory

/-- The quadword at an address. -/
def word (m : Memory) (a : ℕ) : UInt64 := UInt64.ofNat (m.readWord a 8)

def setWord (m : Memory) (a : ℕ) (value : UInt64) : Memory := m.writeWord a 8 value.toNat

variable {m : Memory} {a b : ℕ}

@[simp]
theorem word_setWord (m : Memory) (a : ℕ) (value : UInt64) : (m.setWord a value).word a = value := by
  have hlt : value.toNat < 256 ^ 8 := value.toNat_lt.trans_eq (by norm_num)
  unfold word setWord
  rw [readWord_writeWord, Nat.mod_eq_of_lt hlt, UInt64.ofNat_toNat]

theorem word_congr {n : Memory} (h : ∀ i, a ≤ i → i < a + 8 → m i = n i) : m.word a = n.word a :=
  congrArg UInt64.ofNat (readWord_congr h)

theorem setWord_of_outside (value : UInt64) {i : ℕ} (h : i < a ∨ a + 8 ≤ i) : m.setWord a value i = m i :=
  writeWord_of_outside m value.toNat h

theorem word_setWord_of_apart (value : UInt64) (h : b + 8 ≤ a ∨ a + 8 ≤ b) :
    (m.setWord a value).word b = m.word b :=
  word_congr fun _ _ _ ↦ setWord_of_outside value (by omega)

end Memory

/-! ## State -/

inductive Register
  | rax | rbx | rcx | rdx | rbp | rsp | rdi | rsi | r8 | r9 | r10 | r11 | r12 | r13 | r14 | r15
  deriving DecidableEq

@[ext]
structure Cpu where
  registers : Register → UInt64
  rip : UInt64
  rflags : UInt64
  cs : UInt16
  ss : UInt16
  ds : UInt16
  es : UInt16
  fs : UInt16
  gs : UInt16
  cr3 : UInt64
  fx : Fx
  memory : Memory

namespace Cpu

/-- The address of the last word on the stack. -/
def rsp (c : Cpu) : ℕ := (c.registers .rsp).toNat

def set (c : Cpu) (r : Register) (value : UInt64) : Cpu :=
  { c with registers := Function.update c.registers r value }

def push (c : Cpu) (value : UInt64) : Cpu :=
  let rsp := c.registers .rsp - 8
  { c.set .rsp rsp with memory := c.memory.setWord rsp.toNat value }

/-- The processor behind a `pop`, except for the target. -/
def drop (c : Cpu) : Cpu := c.set .rsp (c.registers .rsp + 8)

end Cpu

/-! ## Instructions -/

inductive Instruction
  | push (source : Register)
  | pushValue (value : UInt64)
  | pop (target : Register)
  | move (target source : Register)
  /-- `mov [base], source` -/
  | store (base source : Register)
  | storeAt (address : UInt64) (source : Register)
  | loadFrom (target : Register) (address : UInt64)
  /-- `xor target, target` -/
  | clear (target : Register)
  | add (target : Register) (value : UInt64)
  | sub (target : Register) (value : UInt64)
  | and (target : Register) (value : UInt64)
  | moveAx (value : UInt16)
  /-- `mov ds, ax` -/
  | moveDs
  | moveEs
  | moveSs
  /-- `mov cr3, rax` -/
  | moveCr3
  | cld
  | fxsave (base : Register)
  | fxsaveAt (address : UInt64)
  | fxrstor (base : Register)
  | fxrstorAt (address : UInt64)
  | fninit
  | fldz
  | ldmxcsr (value : UInt32)
  /-- `pxor` of a register with itself. -/
  | pxor (register : Fin 16)

namespace Cpu

def ax (c : Cpu) : UInt16 := (c.registers .rax).toUInt16

def saveFx (c : Cpu) (address : ℕ) : Cpu := { c with memory := c.memory.copy address c.fx.image 512 }

def restoreFx (c : Cpu) (address : ℕ) : Cpu := { c with fx := Fx.ofImage (c.memory.shift address) }

def exec (c : Cpu) : Instruction → Cpu
  | .push source => c.push (c.registers source)
  | .pushValue value => c.push value
  | .pop target => c.drop.set target (c.memory.word c.rsp)
  | .move target source => c.set target (c.registers source)
  | .store base source => { c with memory := c.memory.setWord (c.registers base).toNat (c.registers source) }
  | .storeAt address source => { c with memory := c.memory.setWord address.toNat (c.registers source) }
  | .loadFrom target address => c.set target (c.memory.word address.toNat)
  | .clear target => c.set target 0
  | .add target value => c.set target (c.registers target + value)
  | .sub target value => c.set target (c.registers target - value)
  | .and target value => c.set target (c.registers target &&& value)
  | .moveAx value => c.set .rax (c.registers .rax &&& 0xffffffffffff0000 ||| value.toUInt64)
  | .moveDs => { c with ds := c.ax }
  | .moveEs => { c with es := c.ax }
  | .moveSs => { c with ss := c.ax }
  | .moveCr3 => { c with cr3 := c.registers .rax }
  | .cld => { c with rflags := c.rflags &&& 0xfffffffffffffbff }
  | .fxsave base => c.saveFx (c.registers base).toNat
  | .fxsaveAt address => c.saveFx address.toNat
  | .fxrstor base => c.restoreFx (c.registers base).toNat
  | .fxrstorAt address => c.restoreFx address.toNat
  | .fninit => { c with fx := c.fx.fninit }
  | .fldz => { c with fx := c.fx.fldz }
  | .ldmxcsr value => { c with fx := c.fx.ldmxcsr value }
  | .pxor register => { c with fx := c.fx.clear register }

/-- Code without jumps. -/
def run (c : Cpu) (code : List Instruction) : Cpu := code.foldl exec c

def ret (c : Cpu) : Cpu := { c.drop with rip := c.memory.word c.rsp }

theorem run_append (c : Cpu) (first second : List Instruction) :
    c.run (first ++ second) = (c.run first).run second := List.foldl_append

theorem run_cons (c : Cpu) (i : Instruction) (code : List Instruction) :
    c.run (i :: code) = (c.exec i).run code := rfl

/-- No instruction here loads `cs`, `fs` or `gs`. -/
theorem exec_selectors (c : Cpu) (i : Instruction) :
    (c.exec i).cs = c.cs ∧ (c.exec i).fs = c.fs ∧ (c.exec i).gs = c.gs := by
  cases i <;> exact ⟨rfl, rfl, rfl⟩

theorem run_selectors (c : Cpu) (code : List Instruction) :
    (c.run code).cs = c.cs ∧ (c.run code).fs = c.fs ∧ (c.run code).gs = c.gs := by
  induction code generalizing c with
  | nil => exact ⟨rfl, rfl, rfl⟩
  | cons i code ih =>
    obtain ⟨hcs, hfs, hgs⟩ := c.exec_selectors i
    obtain ⟨hcs', hfs', hgs'⟩ := ih (c.exec i)
    rw [run_cons]
    exact ⟨hcs'.trans hcs, hfs'.trans hfs, hgs'.trans hgs⟩

@[simp]
theorem registers_set_self (c : Cpu) (r : Register) (value : UInt64) : (c.set r value).registers r = value :=
  Function.update_self ..

theorem registers_set_of_ne (c : Cpu) {r s : Register} (value : UInt64) (h : s ≠ r) :
    (c.set r value).registers s = c.registers s := Function.update_of_ne h ..

variable {c : Cpu}

theorem rsp_push (value : UInt64) (h : 8 ≤ c.rsp) : (c.push value).rsp = c.rsp - 8 := by
  have hle : (8 : UInt64) ≤ c.registers .rsp := UInt64.le_iff_toNat_le.mpr h
  calc (c.push value).rsp = (c.registers .rsp - 8).toNat :=
        congrArg UInt64.toNat (registers_set_self c .rsp (c.registers .rsp - 8))
    _ = c.rsp - 8 := UInt64.toNat_sub_of_le _ _ hle

theorem memory_push (value : UInt64) (h : 8 ≤ c.rsp) :
    (c.push value).memory = c.memory.setWord (c.rsp - 8) value := by
  have hle : (8 : UInt64) ≤ c.registers .rsp := UInt64.le_iff_toNat_le.mpr h
  exact congrArg (c.memory.setWord · value) (UInt64.toNat_sub_of_le _ _ hle)

theorem registers_push {r : Register} (value : UInt64) (h : r ≠ .rsp) :
    (c.push value).registers r = c.registers r := registers_set_of_ne _ _ h

theorem rsp_drop (h : c.rsp + 8 < 2 ^ 64) : c.drop.rsp = c.rsp + 8 := by
  calc c.drop.rsp = (c.registers .rsp + 8).toNat :=
        congrArg UInt64.toNat (registers_set_self c .rsp (c.registers .rsp + 8))
    _ = c.rsp + 8 := Nat.mod_eq_of_lt h

theorem registers_drop {r : Register} (h : r ≠ .rsp) : c.drop.registers r = c.registers r :=
  registers_set_of_ne _ _ h

@[simp]
theorem registers_ret (c : Cpu) : c.ret.registers = c.drop.registers := rfl

@[simp]
theorem memory_ret (c : Cpu) : c.ret.memory = c.memory := rfl

theorem rsp_ret (h : c.rsp + 8 < 2 ^ 64) : c.ret.rsp = c.rsp + 8 := by
  unfold rsp
  rw [registers_ret]
  exact rsp_drop h

/-! ## Values on the stack -/

def pushAll (c : Cpu) (values : List UInt64) : Cpu := values.foldl push c

/-- `c'` is `c` with the values on the stack, the last one on top. -/
structure Pushes (values : List UInt64) (c c' : Cpu) : Prop where
  rsp : c'.rsp + 8 * values.length = c.rsp
  word : ∀ i value, values.reverse[i]? = some value → c'.memory.word (c'.rsp + 8 * i) = value
  registers : ∀ r, r ≠ .rsp → c'.registers r = c.registers r
  memory : ∀ a, a < c'.rsp ∨ c.rsp ≤ a → c'.memory a = c.memory a
  rest : c' = { c with registers := c'.registers, memory := c'.memory }

theorem pushAll_pushes {values : List UInt64} (hroom : 8 * values.length ≤ c.rsp) :
    Pushes values c (c.pushAll values) := by
  induction values using List.reverseRecOn with
  | nil => exact ⟨rfl, fun _ _ h ↦ absurd h (by simp), fun _ _ ↦ rfl, fun _ _ ↦ rfl, rfl⟩
  | append_singleton values value ih =>
    rw [List.length_append, List.length_singleton] at hroom
    have h := ih (by omega)
    have hlow := h.rsp
    unfold pushAll at h hlow ⊢
    rw [List.foldl_append, List.foldl_cons, List.foldl_nil]
    generalize values.foldl push c = c' at h hlow ⊢
    have hrsp := rsp_push value (c := c') (by omega)
    have hmemory := memory_push value (c := c') (by omega)
    refine ⟨?_, fun i other hother ↦ ?_, fun r hr ↦ ?_, fun a ha ↦ ?_, ?_⟩
    · rw [hrsp, List.length_append, List.length_singleton]
      omega
    · rw [List.reverse_append, List.reverse_singleton, List.singleton_append] at hother
      rw [hmemory, hrsp]
      cases i with
      | zero =>
        obtain rfl := Option.some.inj hother
        rw [Nat.mul_zero, Nat.add_zero, Memory.word_setWord]
      | succ i =>
        have hplace : c'.rsp - 8 + 8 * (i + 1) = c'.rsp + 8 * i := by omega
        rw [hplace, Memory.word_setWord_of_apart _ (by omega)]
        exact h.word i other hother
    · exact (registers_push _ hr).trans (h.registers r hr)
    · rw [hrsp] at ha
      rw [hmemory, Memory.setWord_of_outside _ (by omega)]
      exact h.memory a (by omega)
    · rw [push, set, h.rest]

theorem run_push {rs : List Register} (hrsp : Register.rsp ∉ rs) :
    c.run (rs.map .push) = c.pushAll (rs.map c.registers) := by
  induction rs generalizing c with
  | nil => rfl
  | cons r rs ih =>
    obtain ⟨-, hrest⟩ := not_or.mp (mt List.mem_cons.mpr hrsp)
    have hsame : rs.map (c.push (c.registers r)).registers = rs.map c.registers :=
      List.map_congr_left fun s hs ↦ registers_push _ (ne_of_mem_of_not_mem hs hrest)
    calc c.run ((r :: rs).map .push) = (c.push (c.registers r)).run (rs.map .push) := rfl
      _ = (c.push (c.registers r)).pushAll (rs.map (c.push (c.registers r)).registers) := ih hrest
      _ = c.pushAll ((r :: rs).map c.registers) := by rw [hsame]; rfl

/-! ## Registers from the stack -/

/-- `c'` is `c` with the registers from the stack. -/
structure Restores (rs : List Register) (c c' : Cpu) : Prop where
  rsp : c'.rsp = c.rsp + 8 * rs.length
  restored : ∀ i r, rs[i]? = some r → c'.registers r = c.memory.word (c.rsp + 8 * i)
  registers : ∀ r, r ∉ rs → r ≠ .rsp → c'.registers r = c.registers r
  rest : c' = { c with registers := c'.registers }

theorem run_pop {rs : List Register} (hnodup : rs.Nodup) (hrsp : Register.rsp ∉ rs)
    (hroom : c.rsp + 8 * rs.length < 2 ^ 64) : Restores rs c (c.run (rs.map .pop)) := by
  induction rs generalizing c with
  | nil => exact ⟨rfl, nofun, fun _ _ _ ↦ rfl, rfl⟩
  | cons r rs ih =>
    rw [List.length_cons] at hroom
    obtain ⟨hne, hrest⟩ := not_or.mp (mt List.mem_cons.mpr hrsp)
    obtain ⟨hnew, hnodup⟩ := List.nodup_cons.mp hnodup
    have hdrop : (c.exec (.pop r)).rsp = c.rsp + 8 :=
      (congrArg UInt64.toNat (registers_set_of_ne _ _ hne)).trans (rsp_drop (by omega))
    have h := ih hnodup hrest (c := c.exec (.pop r)) (by omega)
    rw [List.map_cons, run_cons]
    refine ⟨?_, fun i s hs ↦ ?_, fun s hs hs' ↦ ?_, ?_⟩
    · rw [h.rsp, hdrop, List.length_cons]
      omega
    · cases i with
      | zero =>
        obtain rfl := Option.some.inj hs
        rw [h.registers r hnew (Ne.symm hne)]
        exact registers_set_self ..
      | succ i =>
        have hplace : c.rsp + 8 * (i + 1) = (c.exec (.pop r)).rsp + 8 * i := by omega
        rw [hplace]
        exact h.restored i s hs
    · obtain ⟨hsr, hsrs⟩ := not_or.mp (mt List.mem_cons.mpr hs)
      rw [h.registers s hsrs hs']
      exact (registers_set_of_ne _ _ hsr).trans (registers_set_of_ne _ _ hs')
    · rw [h.rest]
      rfl

/-! ## Runs of one instruction -/

theorem run_fldz (c : Cpu) (n : ℕ) : c.run (List.replicate n .fldz) = { c with fx := Fx.fldz^[n] c.fx } := by
  induction n generalizing c with
  | zero => rfl
  | succ n ih => exact ih (c.exec .fldz)

theorem run_pxor (c : Cpu) (xmm : List (Fin 16)) :
    c.run (xmm.map .pxor) = { c with fx := xmm.foldl (fun fx i ↦ fx.clear i) c.fx } := by
  induction xmm generalizing c with
  | nil => rfl
  | cons i xmm ih => exact ih (c.exec (.pxor i))

theorem run_clear (c : Cpu) (rs : List Register) :
    c.run (rs.map .clear) = { c with registers := fun r ↦ if r ∈ rs then 0 else c.registers r } := by
  induction rs generalizing c with
  | nil => simp [run]
  | cons s rs ih =>
    refine (ih (c.exec (.clear s))).trans
      (Cpu.ext (funext fun r ↦ ?_) rfl rfl rfl rfl rfl rfl rfl rfl rfl rfl rfl)
    change (if r ∈ rs then 0 else Function.update c.registers s 0 r) = _
    by_cases hr : r = s
    · simp [hr]
    · simp [hr]

end Cpu

end JordyOS.Machine
