import JordyOS.Bpf.Arithmetic
import JordyOS.Bpf.Validation

/-!
# The instruction set the interpreter implements

A validated instruction other than a load, a store, a call or an exit decodes to one of the instruction
set, and a round of the interpreter does to the registers and the program counter what that instruction
is defined to do.
-/

namespace JordyOS.Bpf

open Machine Ebpf

/-! ## Decoding -/

def arithmetic : List Operation :=
  [.add, .sub, .mul, .div, .or, .and, .lsh, .rsh, .neg, .mod, .xor, .mov, .arsh]

def conditions : List Condition :=
  [.always, .eq, .gt, .ge, .set, .ne, .sgt, .sge, .lt, .le, .slt, .sle]

def register? (n : ℕ) : Option (Fin 11) := if h : n < 11 then some ⟨n, h⟩ else none

/-- The second operand of an instruction. -/
def BpfInsn.operand (i : BpfInsn) (src : Fin 11) : Operand :=
  if i.fromRegister then .register src else .immediate i.immediate.toBitVec

/-- The instruction for a byte-order conversion. -/
def BpfInsn.conversion (i : BpfInsn) (dst : Fin 11) : Instruction :=
  let bits := i.immediate.toInt.toNat
  if i.fromRegister then .toBigEndian bits dst else .toLittleEndian bits dst

/-- The value a wide load gives its register: the two halves, or the handle of a map. -/
def BpfInsn.wide (i hi : BpfInsn) : BitVec 64 :=
  if i.src = 0 then hi.immediate.toBitVec ++ i.immediate.toBitVec
  else bpfHandles.toBitVec + i.immediate.toBitVec.setWidth 64

/-- The instruction of the instruction set that begins at `pc`. -/
def decode (code : List BpfInsn) (pc : ℕ) : Option Instruction := do
  let i ← code[pc]?
  let dst ← register? i.dst
  let src ← register? i.src
  if i.code = 0x18 then do
    let hi ← code[pc + 1]?
    some (.load dst (i.wide hi))
  else if i.cls = 4 ∨ i.cls = 7 then
    if i.op = 0xd0 then some (i.conversion dst)
    else do
      let operation ← arithmetic.find? (opcode · == i.op)
      some (.alu (if i.cls = 7 then .wide else .narrow) operation dst (i.operand src))
  else if (i.cls = 5 ∨ i.cls = 6) ∧ i.code ≠ 0x85 ∧ i.code ≠ 0x95 then do
    let condition ← conditions.find? (jumpOpcode · == i.op)
    some (.jump (if i.cls = 5 then .wide else .narrow) condition dst (i.operand src) i.offset.toInt)
  else none

/-! ## Registers -/

/-- The registers as the instruction set sees them. -/
def Vm.file (vm : Vm) : Registers := fun n ↦ vm.registers[n.val].toBitVec

def Vm.setRegister (vm : Vm) (n : Fin 11) (value : UInt64) : Vm :=
  { vm with registers := vm.registers.set n value }

theorem Vm.file_setRegister (vm : Vm) (n : Fin 11) (value : UInt64) :
    (vm.setRegister n value).file = Function.update vm.file n value.toBitVec := by
  funext m
  unfold Vm.file Vm.setRegister
  by_cases hm : m = n
  · subst hm
    rw [Function.update_self]
    exact congrArg UInt64.toBitVec (Vector.getElem_set_self m.isLt)
  · rw [Function.update_of_ne hm]
    refine congrArg UInt64.toBitVec (Vector.getElem_set_ne n.isLt m.isLt ?_)
    exact fun heq ↦ hm (Fin.ext heq.symm)

variable {vm : Vm} {i : BpfInsn} {code : List BpfInsn}

theorem getRegister_returns (n : Fin 11) : Returns (getRegister n) vm vm.registers[n.val] vm := by
  refine Returns.bind Returns.get ?_
  have hsome : vm.registers[n.val]? = some vm.registers[n.val] := Vector.getElem?_eq_getElem n.isLt
  rw [hsome]
  exact Returns.pure

theorem setRegister_returns (n : Fin 11) (value : UInt64) :
    Returns (setRegister n value) vm ⟨⟩ (vm.setRegister n value) := by
  rw [setRegister, dif_pos n.isLt]
  exact Returns.modify

/-- The state when the instruction at the program counter is executed. -/
def Vm.fetched (vm : Vm) : Vm := { vm with pc := vm.pc + 1, steps := vm.steps + 1 }

/-- From `vm` the instruction leads to `t`. -/
structure Obeys (instruction : Instruction) (vm t : Vm) : Prop where
  registers : t.file = instruction.registers vm.file
  pc : t.pc = instruction.next vm.file vm.pc
  stack : t.stack = vm.stack
  environment : t.environment = vm.environment
  steps : t.steps = vm.steps + 1

theorem obeys_setRegister {instruction : Instruction} {n : Fin 11} {value : UInt64}
    (hregisters : instruction.registers vm.file = Function.update vm.file n value.toBitVec)
    (hpc : instruction.next vm.file vm.pc = vm.pc + 1) :
    Obeys instruction vm (vm.fetched.setRegister n value) where
  registers := (Vm.file_setRegister vm.fetched n value).trans hregisters.symm
  pc := hpc.symm
  stack := rfl
  environment := rfl
  steps := rfl

/-! ## Operands -/

theorem operand_returns (vm : Vm) {src : Fin 11} (hsrc : i.src = src) :
    ∃ b, Returns (operand i) vm b vm ∧ b.toBitVec = (i.operand src).value vm.file := by
  unfold operand BpfInsn.operand
  cases i.fromRegister with
  | true =>
    rw [if_pos rfl, if_pos rfl, hsrc]
    exact ⟨_, getRegister_returns src, rfl⟩
  | false => exact ⟨_, Returns.pure, rfl⟩

/-! ## Arithmetic -/

theorem find?_opcode (hop : i.op ∈ operations) (hle : ¬ i.op > 0xc0) :
    ∃ o, arithmetic.find? (opcode · == i.op) = some o ∧ opcode o = i.op := by
  have hsome : (arithmetic.find? (opcode · == i.op)).isSome := by
    revert hop hle
    generalize i.op = op
    revert op
    decide +kernel
  obtain ⟨o, ho⟩ := Option.isSome_iff_exists.mp hsome
  have hopcode : (opcode o == i.op) = true := List.find?_some (p := fun o ↦ opcode o == i.op) ho
  exact ⟨o, ho, beq_iff_eq.mp hopcode⟩

theorem alu_returns (vm : Vm) {o : Operation} (ho : opcode o = i.op) (hop : i.op ≠ 0xd0) {dst src : Fin 11}
    (hdst : i.dst = dst) (hsrc : i.src = src) (hframe : i.dst ≠ 10) :
    ∃ value, Returns (alu i) vm ⟨⟩ (vm.setRegister dst value) ∧
      (Instruction.alu (if i.cls = 7 then .wide else .narrow) o dst (i.operand src)).registers vm.file =
        Function.update vm.file dst value.toBitVec := by
  obtain ⟨b, hb, hvalue⟩ := operand_returns vm hsrc
  obtain ⟨a, ha⟩ : ∃ a, a = vm.registers[dst.val] := ⟨_, rfl⟩
  have hfile : vm.file dst = a.toBitVec := congrArg UInt64.toBitVec ha.symm
  have hget : Returns (getRegister i.dst) vm a vm := by
    rw [hdst, ha]
    exact getRegister_returns dst
  by_cases hcls : i.cls = 7
  · have hwide : (i.cls == 7) = true := beq_iff_eq.mpr hcls
    have hresult := aluValue_wide o a b
    rw [ho] at hresult
    obtain ⟨v, hv, hresult⟩ := Option.map_eq_some_iff.mp hresult
    refine ⟨v, ?_, ?_⟩
    · refine Returns.ite_neg hframe (Returns.bind hget (Returns.bind hb (Returns.ite_neg hop ?_)))
      simp only [hwide, if_true, hv, hdst]
      exact setRegister_returns dst v
    · rw [if_pos hcls, Instruction.registers, hfile, ← hvalue, hresult]
      rfl
  · have hnarrow : (i.cls == 7) = false := beq_eq_false_iff_ne.mpr hcls
    have hresult := aluValue_narrow o a.toUInt32 b.toUInt32
    rw [ho] at hresult
    obtain ⟨v, hv, hresult⟩ := Option.map_eq_some_iff.mp hresult
    refine ⟨v.toUInt32.toUInt64, ?_, ?_⟩
    · refine Returns.ite_neg hframe (Returns.bind hget (Returns.bind hb (Returns.ite_neg hop ?_)))
      simp only [hnarrow, Bool.false_eq_true, if_false, hv, hdst]
      exact setRegister_returns dst _
    · rw [if_neg hcls, Instruction.registers, hfile, ← hvalue]
      congr 2
      exact hresult.symm

/-! ## Byte order -/

theorem conversion_returns (vm : Vm) (hop : i.op = 0xd0) {dst src : Fin 11} (hdst : i.dst = dst)
    (hsrc : i.src = src) (hframe : i.dst ≠ 10) (hcls : i.cls = 4)
    (hbits : i.immediate = 16 ∨ i.immediate = 32 ∨ i.immediate = 64) :
    ∃ value, Returns (alu i) vm ⟨⟩ (vm.setRegister dst value) ∧
      (i.conversion dst).registers vm.file = Function.update vm.file dst value.toBitVec := by
  obtain ⟨b, hb, -⟩ := operand_returns vm hsrc
  obtain ⟨a, ha⟩ : ∃ a, a = vm.registers[dst.val] := ⟨_, rfl⟩
  have hfile : vm.file dst = a.toBitVec := congrArg UInt64.toBitVec ha.symm
  have hget : Returns (getRegister i.dst) vm a vm := by
    rw [hdst, ha]
    exact getRegister_returns dst
  have hcount : i.immediate.toInt.toNat = 16 ∨ i.immediate.toInt.toNat = 32 ∨
      i.immediate.toInt.toNat = 64 := by
    rcases hbits with h | h | h <;> rw [h] <;> decide
  have hgood : ¬ ((i.cls == 7) = true ∨
      (i.immediate ≠ 16 ∧ i.immediate ≠ 32 ∧ i.immediate ≠ 64)) := by
    rw [hcls]
    rintro (h | ⟨h16, h32, h64⟩)
    · exact absurd h (by decide)
    · rcases hbits with h | h | h
      · exact h16 h
      · exact h32 h
      · exact h64 h
  refine ⟨swapBytes a i.immediate.toInt.toNat i.fromRegister, ?_, ?_⟩
  · refine Returns.ite_neg hframe (Returns.bind hget (Returns.bind hb (Returns.ite_pos hop ?_)))
    refine Returns.ite_neg hgood ?_
    rw [hdst]
    exact setRegister_returns dst _
  · unfold BpfInsn.conversion
    cases i.fromRegister with
    | true => rw [swapBytes_big a hcount, ← hfile]; rfl
    | false => rw [swapBytes_little a hcount, ← hfile]; rfl

/-! ## Wide loads -/

theorem toBitVec_wideValue (i hi : BpfInsn) :
    (wideValue i hi).toBitVec = hi.immediate.toBitVec ++ i.immediate.toBitVec := by
  apply BitVec.eq_of_toNat_eq
  have hlow := i.immediate.toBitVec.isLt
  have hhigh := hi.immediate.toBitVec.isLt
  rw [BitVec.toNat_append, ← Nat.shiftLeft_add_eq_or_of_lt hlow, Nat.shiftLeft_eq]
  have hshift : (32 : UInt64).toNat % 64 = 32 := rfl
  have hupper : (hi.immediate.toUInt32.toUInt64 <<< 32).toNat = hi.immediate.toBitVec.toNat * 2 ^ 32 := by
    rw [UInt64.toNat_shiftLeft, hshift, Nat.shiftLeft_eq, UInt32.toNat_toUInt64]
    change hi.immediate.toBitVec.toNat * 2 ^ 32 % 2 ^ 64 = _
    omega
  change (wideValue i hi).toNat = _
  rw [wideValue, UInt64.toNat_or, hupper, UInt32.toNat_toUInt64, Nat.or_comm, Nat.mul_comm,
    ← Nat.two_pow_add_eq_or_of_lt i.immediate.toUInt32.toNat_lt]
  rfl

/-- The handle of a map, whose upper slot is zero. -/
theorem toBitVec_handle {hi : BpfInsn} (hvalid : validWide i hi = true) (hsrc : i.src ≠ 0) :
    (wideValue i hi + bpfHandles).toBitVec =
      bpfHandles.toBitVec + i.immediate.toBitVec.setWidth 64 := by
  have hupper : hi.immediate = 0 := by
    simp [validWide, hsrc] at hvalid
    exact hvalid.2.2
  have hvalue : (wideValue i hi).toBitVec = i.immediate.toBitVec.setWidth 64 := by
    have hlt := i.immediate.toBitVec.isLt
    have hle : 2 ^ 32 ≤ 2 ^ 64 := by decide
    rw [toBitVec_wideValue, hupper]
    apply BitVec.eq_of_toNat_eq
    rw [BitVec.toNat_append, BitVec.toNat_setWidth, Nat.mod_eq_of_lt (Nat.lt_of_lt_of_le hlt hle)]
    change 0 <<< 32 ||| i.immediate.toBitVec.toNat = _
    rw [Nat.zero_shiftLeft, Nat.zero_or]
  rw [UInt64.toBitVec_add, hvalue, BitVec.add_comm]

theorem wideLoad_obeys {hi : BpfInsn} (hhi : code[vm.pc + 1]? = some hi)
    (hvalid : validWide i hi = true) {dst : Fin 11} (hdst : i.dst = dst) :
    ∃ t, Returns (wideLoad code i) vm.fetched ⟨⟩ t ∧ Obeys (.load dst (i.wide hi)) vm t := by
  have hlt := (List.getElem?_eq_some_iff.mp hhi).1
  have hgood : ¬ (vm.fetched.pc ≥ code.length ∨ i.dst = 10 ∨ i.src > 1) := by
    simp [validWide] at hvalid
    have hpc : vm.fetched.pc = vm.pc + 1 := rfl
    omega
  obtain ⟨behind, hbehind⟩ : ∃ behind, behind = { vm.fetched with pc := vm.fetched.pc + 1 } := ⟨_, rfl⟩
  have hslot : Returns (nextSlot code) vm.fetched hi behind := by
    refine Returns.bind Returns.get ?_
    have hfound : code[vm.fetched.pc]? = some hi := hhi
    rw [hfound, hbehind]
    exact Returns.bind rfl Returns.pure
  have hfile : behind.file = vm.file := by
    rw [hbehind]
    rfl
  have hpc : (behind.pc : ℤ) = vm.pc + 2 := by
    rw [hbehind]
    change ((vm.pc + 1 + 1 : ℕ) : ℤ) = _
    omega
  have hload : Returns (setRegister i.dst (wideValue i hi)) behind ⟨⟩
      (behind.setRegister dst (wideValue i hi)) := by
    rw [hdst]
    exact setRegister_returns dst _
  by_cases hsrc : i.src = 0
  · refine ⟨behind.setRegister dst (wideValue i hi), ?_, ?_, hpc, ?_, ?_, ?_⟩
    · refine Returns.bind Returns.get (Returns.ite_neg hgood (Returns.bind hslot ?_))
      exact Returns.bind hload (Returns.ite_neg (not_not.mpr hsrc) Returns.pure)
    · rw [Vm.file_setRegister, hfile, toBitVec_wideValue, BpfInsn.wide, if_pos hsrc]
      rfl
    all_goals
      rw [hbehind]
      rfl
  · have hbelow : ¬ wideValue i hi ≥ 7 := UInt64.not_le.mpr (wideValue_lt hvalid hsrc)
    refine ⟨(behind.setRegister dst (wideValue i hi)).setRegister dst (wideValue i hi + bpfHandles),
      ?_, ?_, hpc, ?_, ?_, ?_⟩
    · refine Returns.bind Returns.get (Returns.ite_neg hgood (Returns.bind hslot ?_))
      refine Returns.bind hload (Returns.ite_pos hsrc (Returns.ite_neg hbelow ?_))
      rw [hdst]
      exact setRegister_returns dst _
    · rw [Vm.file_setRegister, Vm.file_setRegister, Function.update_idem, hfile,
        toBitVec_handle hvalid hsrc, BpfInsn.wide, if_neg hsrc]
      rfl
    all_goals
      rw [hbehind]
      rfl

/-! ## Jumps -/

theorem find?_jumpOpcode (hop : i.op ∈ operations) (hcall : i.op ≠ 0x80) (hexit : i.op ≠ 0x90)
    (hle : ¬ i.op > 0xd0) :
    ∃ c, conditions.find? (jumpOpcode · == i.op) = some c ∧ jumpOpcode c = i.op := by
  have hsome : (conditions.find? (jumpOpcode · == i.op)).isSome := by
    revert hop hcall hexit hle
    generalize i.op = op
    revert op
    decide +kernel
  obtain ⟨c, hc⟩ := Option.isSome_iff_exists.mp hsome
  have hopcode : (jumpOpcode c == i.op) = true :=
    List.find?_some (p := fun c ↦ jumpOpcode c == i.op) hc
  exact ⟨c, hc, beq_iff_eq.mp hopcode⟩

/-- Whether a branch is taken, at either width. -/
theorem taken_operands {c : Condition} (hc : jumpOpcode c = i.op) (x y : UInt64)
    (hcls : i.cls = 5 ∨ i.cls = 6) {width : Width}
    (hwidth : width = if i.cls = 5 then .wide else .narrow) :
    taken i.op (if i.cls == 6 then x.toUInt32.toUInt64 else x)
      (if i.cls == 6 then y.toUInt32.toUInt64 else y)
      (if i.cls == 6 then x.toUInt32.toInt32.toInt else x.toInt64.toInt)
      (if i.cls == 6 then y.toUInt32.toInt32.toInt else y.toInt64.toInt) =
      some (c.holds (x.toBitVec.setWidth width.bits) (y.toBitVec.setWidth width.bits)) := by
  rcases hcls with hcls | hcls
  · have hwide : (i.cls == 6) = false := by rw [hcls]; rfl
    rw [hwidth, if_pos hcls, ← hc, hwide]
    change _ = some (c.holds (x.toBitVec.setWidth 64) (y.toBitVec.setWidth 64))
    rw [BitVec.setWidth_eq, BitVec.setWidth_eq]
    exact taken_eq c rfl rfl
  · have hne : i.cls ≠ 5 := by rw [hcls]; decide
    have hnarrow : (i.cls == 6) = true := by rw [hcls]; rfl
    rw [hwidth, if_neg hne, ← hc, hnarrow]
    exact taken_eq c (UInt32.toNat_toUInt64 x.toUInt32) (UInt32.toNat_toUInt64 y.toUInt32)

/-- What the validator has checked of a branch that is neither a call nor the exit. -/
theorem validBranch_jump {pc : ℕ} (hvalid : validBranch code pc i = true) (hcall : i.code ≠ 0x85)
    (hexit : i.code ≠ 0x95) :
    i.op ≠ 0x80 ∧ i.op ≠ 0x90 ∧ ¬ i.op > 0xd0 ∧ target code pc i.offset = true := by
  have hcallOp : i.op ≠ 0x80 := fun hop ↦ by simp [validBranch, hop, hcall] at hvalid
  have hexitOp : i.op ≠ 0x90 := fun hop ↦ by simp [validBranch, hop, hexit] at hvalid
  have hle : ¬ i.op > 0xd0 := fun hgt ↦ by simp [validBranch, hcallOp, hexitOp, hgt] at hvalid
  refine ⟨hcallOp, hexitOp, hle, ?_⟩
  by_contra htarget
  rw [Bool.not_eq_true] at htarget
  simp [validBranch, hcallOp, hexitOp, htarget] at hvalid

/-- A taken branch of a validated program goes to its target. -/
theorem jump_returns (htarget : target code vm.pc i.offset = true) :
    ∃ q : ℕ, (q : ℤ) = vm.pc + 1 + i.offset.toInt ∧
      Returns (jump code i) vm.fetched ⟨⟩ { vm.fetched with pc := q } := by
  unfold target at htarget
  simp only [Bool.and_eq_true, decide_eq_true_eq] at htarget
  obtain ⟨⟨hlow, hhigh⟩, hany⟩ := htarget
  have hlt : ((vm.pc : ℤ) + 1 + i.offset.toInt).toNat < code.length := by omega
  rw [List.getElem?_eq_getElem hlt, Option.any_some] at hany
  have hpc : (vm.fetched.pc : ℤ) = vm.pc + 1 := rfl
  refine ⟨((vm.pc : ℤ) + 1 + i.offset.toInt).toNat, Int.toNat_of_nonneg hlow, ?_⟩
  refine Returns.bind Returns.get ?_
  simp only [hpc]
  refine Returns.ite_neg (by omega) ?_
  rw [List.getElem?_eq_getElem hlt]
  exact Returns.ite_neg (bne_iff_ne.mp hany) Returns.modify

theorem branch_obeys (hcls : i.cls = 5 ∨ i.cls = 6) (hvalid : validBranch code vm.pc i = true)
    (hcall : i.code ≠ 0x85) (hexit : i.code ≠ 0x95) {c : Condition} (hc : jumpOpcode c = i.op)
    {dst src : Fin 11} (hdst : i.dst = dst) (hsrc : i.src = src) :
    ∃ t, Returns (branch code i) vm.fetched ⟨⟩ t ∧
      Obeys (.jump (if i.cls = 5 then .wide else .narrow) c dst (i.operand src) i.offset.toInt) vm t := by
  obtain ⟨y, hy, hvalue⟩ := operand_returns vm.fetched hsrc
  obtain ⟨x, hx⟩ : ∃ x, x = vm.registers[dst.val] := ⟨_, rfl⟩
  have hfile : vm.file dst = x.toBitVec := congrArg UInt64.toBitVec hx.symm
  have hget : Returns (getRegister i.dst) vm.fetched x vm.fetched := by
    rw [hdst, hx]
    exact getRegister_returns dst
  obtain ⟨width, hwidth⟩ : ∃ width : Width, width = if i.cls = 5 then .wide else .narrow := ⟨_, rfl⟩
  have htaken := taken_operands hc x y hcls hwidth
  rw [hvalue, ← hfile] at htaken
  rw [← hwidth]
  -- the condition decides which of the two parts runs
  have hunfold : ∀ t, Returns (if c.holds ((vm.file dst).setWidth width.bits)
      (((i.operand src).value vm.fetched.file).setWidth width.bits) then jump code i else pure ⟨⟩) vm.fetched ⟨⟩ t →
      Returns (branch code i) vm.fetched ⟨⟩ t := by
    intro t ht
    refine Returns.ite_neg hexit (Returns.ite_neg hcall (Returns.bind hget (Returns.bind hy ?_)))
    dsimp only
    rw [htaken]
    cases hholds : c.holds ((vm.file dst).setWidth width.bits)
        (((i.operand src).value vm.fetched.file).setWidth width.bits) with
    | true =>
      rw [if_pos hholds] at ht
      exact ht
    | false =>
      rw [if_neg (Bool.eq_false_iff.mp hholds)] at ht
      exact ht
  obtain ⟨q, hq, hjump⟩ := jump_returns (validBranch_jump hvalid hcall hexit).2.2.2
  cases hholds : c.holds ((vm.file dst).setWidth width.bits)
      (((i.operand src).value vm.fetched.file).setWidth width.bits) with
  | true =>
    rw [if_pos hholds] at hunfold
    refine ⟨_, hunfold _ hjump, rfl, ?_, rfl, rfl, rfl⟩
    exact hq.trans (if_pos hholds).symm
  | false =>
    rw [if_neg (Bool.eq_false_iff.mp hholds)] at hunfold
    refine ⟨_, hunfold _ Returns.pure, rfl, ?_, rfl, rfl, rfl⟩
    exact (if_neg (Bool.eq_false_iff.mp hholds)).symm

/-! ## Rounds -/

theorem register?_eq {n : ℕ} (hn : n ≤ 10) : ∃ r : Fin 11, register? n = some r ∧ n = r := by
  have hlt : n < 11 := by omega
  exact ⟨⟨n, hlt⟩, dif_pos hlt, rfl⟩

/-- A round fetches the instruction and executes it. -/
theorem step_returns {t : Vm} (hslot : code[vm.pc]? = some i)
    (h : Returns (execute code i) vm.fetched ⟨⟩ t) : Returns (step code) vm ⟨⟩ t := by
  have hnext : Returns (nextSlot code) vm i { vm with pc := vm.pc + 1 } := by
    refine Returns.bind Returns.get ?_
    rw [hslot]
    exact Returns.bind rfl Returns.pure
  exact Returns.bind hnext (Returns.bind Returns.modify h)

/-- One round of the interpreter at a validated arithmetic, byte-order, wide-load or jump instruction
does what the instruction set says, whatever is in the registers. -/
theorem step_instruction (code : List BpfInsn) (hvalid : bpfValidate code = true) (vm : Vm)
    (hfirst : FirstSlot code vm.pc) (i : BpfInsn) (hslot : code[vm.pc]? = some i)
    (hkind : i.code = 0x18 ∨ i.cls = 4 ∨ i.cls = 7 ∨
      ((i.cls = 5 ∨ i.cls = 6) ∧ i.code ≠ 0x85 ∧ i.code ≠ 0x95)) :
    ∃ instruction t, decode code vm.pc = some instruction ∧ step code vm = .ok ⟨⟩ t ∧
      Obeys instruction vm t := by
  have haccepted := accepted_of_scans (validateFrom_of_valid hvalid) hfirst.2 hslot
  obtain ⟨dst, hsome, hdst⟩ := register?_eq haccepted.dst_le
  obtain ⟨src, hsome', hsrc⟩ := register?_eq haccepted.src_le
  have hregisters : ¬ (i.dst > 10 ∨ i.src > 10) := by
    have hle := haccepted.dst_le
    have hle' := haccepted.src_le
    omega
  by_cases hwide : i.code = 0x18
  · obtain ⟨hi, hhi, hvalidWide⟩ := haccepted.wide hwide
    obtain ⟨t, ht, hobeys⟩ := wideLoad_obeys hhi hvalidWide hdst
    refine ⟨.load dst (i.wide hi), t, ?_, step_returns hslot ?_, hobeys⟩
    · simp [decode, hslot, hsome, hsome', hwide, hhi]
    · exact Returns.ite_neg hregisters (Returns.ite_pos hwide ht)
  have hnarrow := haccepted.narrow hwide
  by_cases halu : i.cls = 4 ∨ i.cls = 7
  · have hvalidAlu := BpfInsn.IsAlu.valid ⟨hwide, halu⟩ hnarrow
    have hframe : i.dst ≠ 10 := fun h ↦ by simp [validAlu, h] at hvalidAlu
    have hexecute : ∀ t, Returns (alu i) vm.fetched ⟨⟩ t →
        Returns (execute code i) vm.fetched ⟨⟩ t := fun t ht ↦
      Returns.ite_neg hregisters (Returns.ite_neg hwide (Returns.ite_pos halu ht))
    by_cases hop : i.op = 0xd0
    · have hbits : i.cls = 4 ∧ (i.immediate = 16 ∨ i.immediate = 32 ∨ i.immediate = 64) := by
        simp [validAlu, hop] at hvalidAlu
        exact ⟨hvalidAlu.2.1.1, or_assoc.mp hvalidAlu.2.2⟩
      obtain ⟨value, hreturns, hregisters'⟩ :=
        conversion_returns vm.fetched hop hdst hsrc hframe hbits.1 hbits.2
      refine ⟨i.conversion dst, vm.fetched.setRegister dst value, ?_,
        step_returns hslot (hexecute _ hreturns), obeys_setRegister hregisters' ?_⟩
      · simp [decode, hslot, hsome, hsome', hwide, halu, hop]
      · unfold BpfInsn.conversion
        cases i.fromRegister <;> rfl
    · have hle : ¬ i.op > 0xc0 := fun hgt ↦ by simp [validAlu, hop, hgt] at hvalidAlu
      obtain ⟨o, hfind, ho⟩ := find?_opcode i.op_mem hle
      obtain ⟨value, hreturns, hregisters'⟩ :=
        alu_returns vm.fetched ho hop hdst hsrc hframe
      refine ⟨_, vm.fetched.setRegister dst value, ?_,
        step_returns hslot (hexecute _ hreturns), obeys_setRegister hregisters' rfl⟩
      simp [decode, hslot, hsome, hsome', hwide, halu, hop, hfind]
  · have hbranch : (i.cls = 5 ∨ i.cls = 6) ∧ i.code ≠ 0x85 ∧ i.code ≠ 0x95 :=
      hkind.elim (fun h ↦ absurd h hwide) fun h ↦ h.elim (fun h ↦ absurd (Or.inl h) halu)
        fun h ↦ h.elim (fun h ↦ absurd (Or.inr h) halu) id
    obtain ⟨hcls, hcall, hexit⟩ := hbranch
    have haccess : ¬ (i.cls = 1 ∨ i.cls = 2 ∨ i.cls = 3) := by
      rcases hcls with h | h <;> rw [h] <;> decide
    have hvalidBranch := BpfInsn.IsBranch.valid ⟨hwide, halu, haccess, hcls⟩ hnarrow
    obtain ⟨hcallOp, hexitOp, hle, -⟩ := validBranch_jump hvalidBranch hcall hexit
    obtain ⟨c, hfind, hc⟩ := find?_jumpOpcode i.op_mem hcallOp hexitOp hle
    obtain ⟨t, ht, hobeys⟩ := branch_obeys hcls hvalidBranch hcall hexit hc hdst hsrc
    refine ⟨_, t, ?_, step_returns hslot ?_, hobeys⟩
    · simp [decode, hslot, hsome, hsome', hwide, halu, hcls, hcall, hexit, hfind]
    · refine Returns.ite_neg hregisters (Returns.ite_neg hwide (Returns.ite_neg halu ?_))
      exact Returns.ite_neg haccess (Returns.ite_pos hcls ht)

/-- The move of r10 to r2 in the second slot. -/
theorem step_instruction_counter :
    ∃ instruction t, decode counterProgram 1 = some instruction ∧
      step counterProgram { start counterEnvironment with pc := 1 } = .ok ⟨⟩ t ∧
      Obeys instruction { start counterEnvironment with pc := 1 } t :=
  step_instruction counterProgram (by decide +kernel) { start counterEnvironment with pc := 1 }
    ⟨by decide, Scans.step (i := ⟨0x62, 0x0a, -4, 1⟩) rfl (Scans.here 1)⟩ ⟨0xbf, 0xa2, 0, 0⟩ rfl
    (by decide +kernel)

end JordyOS.Bpf
