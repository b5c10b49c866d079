import JordyOS.Bpf.Sandbox

/-!
# Validated programs

The validator reads the instructions from the front and steps over the second slot of a wide load, so
it fixes where instructions begin.  A validated program only ever goes on where one begins, and each
instruction it executes has passed the checks; so of all the ways a round may fail, only those that
depend on values are left.
-/

namespace JordyOS.Bpf

open Machine

variable {code : List BpfInsn} {e : BpfEnvironment} {pc q : ℕ} {i : BpfInsn}

/-! ## Where instructions begin -/

/-- How many slots an instruction takes. -/
def BpfInsn.width (i : BpfInsn) : ℕ := if i.code = 0x18 then 2 else 1

/-- Reading instructions from `p` on, one begins at `q`. -/
inductive Scans (code : List BpfInsn) : ℕ → ℕ → Prop
  | here (p : ℕ) : Scans code p p
  | step {p q : ℕ} {i : BpfInsn} (hslot : code[p]? = some i) (h : Scans code (p + i.width) q) :
      Scans code p q

theorem Scans.next {p : ℕ} (h : Scans code p q) (hslot : code[q]? = some i) :
    Scans code p (q + i.width) := by
  induction h with
  | here p => exact Scans.step hslot (Scans.here _)
  | step hfirst _ ih => exact Scans.step hfirst (ih hslot)

/-- An instruction begins at `p`. -/
def FirstSlot (code : List BpfInsn) (p : ℕ) : Prop := p < code.length ∧ Scans code 0 p

/-! ## What the validator has checked -/

/-- The instruction `i` at `pc` has passed the checks. -/
structure Accepted (code : List BpfInsn) (pc : ℕ) (i : BpfInsn) : Prop where
  dst_le : i.dst ≤ 10
  src_le : i.src ≤ 10
  wide : i.code = 0x18 → ∃ hi, code[pc + 1]? = some hi ∧ validWide i hi = true
  narrow : i.code ≠ 0x18 → validNarrow code pc i = true

theorem dst_src_le_iff (i : BpfInsn) :
    (decide (i.dst > 10) || decide (i.src > 10)) = false ↔ i.dst ≤ 10 ∧ i.src ≤ 10 := by
  rw [Bool.or_eq_false_iff, decide_eq_false_iff_not, decide_eq_false_iff_not, Nat.not_lt, Nat.not_lt]

/-- The validator checks the instruction at `pc` and goes on behind it. -/
theorem validateFrom_iff (exit : Bool) (hslot : code[pc]? = some i) :
    validateFrom code pc exit (code.drop pc) = true ↔ Accepted code pc i ∧
      validateFrom code (pc + i.width) (exit || i.code == 0x95) (code.drop (pc + i.width)) = true := by
  obtain ⟨hlt, hi⟩ := List.getElem?_eq_some_iff.mp hslot
  have hcons : code.drop pc = i :: code.drop (pc + 1) := by rw [List.drop_eq_getElem_cons hlt, hi]
  rw [hcons, validateFrom.eq_def]
  dsimp only
  by_cases hregisters : (decide (i.dst > 10) || decide (i.src > 10)) = true
  · rw [if_pos hregisters]
    refine ⟨fun h ↦ absurd h Bool.false_ne_true, fun h ↦ ?_⟩
    have hle := (dst_src_le_iff i).mpr ⟨h.1.dst_le, h.1.src_le⟩
    exact absurd (hle.symm.trans hregisters) Bool.false_ne_true
  rw [if_neg hregisters]
  obtain ⟨hdst, hsrc⟩ := (dst_src_le_iff i).mp (Bool.eq_false_of_not_eq_true hregisters)
  by_cases hwide : i.code = 0x18
  · have hexit : (exit || i.code == 0x95) = exit := by
      rw [hwide]
      exact Bool.or_false exit
    rw [if_pos (beq_iff_eq.mpr hwide), hexit, BpfInsn.width, if_pos hwide]
    cases hsecond : code[pc + 1]? with
    | none =>
      have hend : code.length ≤ pc + 1 := List.getElem?_eq_none_iff.mp hsecond
      rw [List.drop_eq_nil_of_le hend]
      refine ⟨fun h ↦ absurd h Bool.false_ne_true, fun h ↦ ?_⟩
      obtain ⟨hi', hhi, -⟩ := h.1.wide hwide
      exact absurd (hsecond.symm.trans hhi) (Option.some_ne_none hi').symm
    | some hi' =>
      obtain ⟨hlt', hhi⟩ := List.getElem?_eq_some_iff.mp hsecond
      rw [List.drop_eq_getElem_cons hlt', hhi]
      dsimp only
      constructor
      · intro h
        by_cases hvalid : validWide i hi' = true
        · rw [if_pos hvalid] at h
          exact ⟨⟨hdst, hsrc, fun _ ↦ ⟨hi', hsecond, hvalid⟩, fun hne ↦ absurd hwide hne⟩, h⟩
        · rw [if_neg hvalid] at h
          exact absurd h Bool.false_ne_true
      · rintro ⟨haccepted, hrest⟩
        obtain ⟨second, hslot', hvalid⟩ := haccepted.wide hwide
        obtain rfl := Option.some.inj (hsecond.symm.trans hslot')
        rw [if_pos hvalid]
        exact hrest
  · rw [if_neg fun heq ↦ hwide (beq_iff_eq.mp heq), BpfInsn.width, if_neg hwide]
    constructor
    · intro h
      by_cases hvalid : validNarrow code pc i = true
      · rw [if_pos hvalid] at h
        exact ⟨⟨hdst, hsrc, fun heq ↦ absurd heq hwide, fun _ ↦ hvalid⟩, h⟩
      · rw [if_neg hvalid] at h
        exact absurd h Bool.false_ne_true
    · rintro ⟨haccepted, hrest⟩
      rw [if_pos (haccepted.narrow hwide)]
      exact hrest

theorem validateFrom_step {exit : Bool} (h : validateFrom code pc exit (code.drop pc) = true)
    (hslot : code[pc]? = some i) : Accepted code pc i ∧
      ∃ seen, validateFrom code (pc + i.width) seen (code.drop (pc + i.width)) = true := by
  obtain ⟨haccepted, hrest⟩ := (validateFrom_iff exit hslot).mp h
  exact ⟨haccepted, _, hrest⟩

theorem accepted_of_scans {exit : Bool} {p : ℕ} (h : validateFrom code p exit (code.drop p) = true)
    (hscans : Scans code p q) (hslot : code[q]? = some i) : Accepted code q i := by
  induction hscans generalizing exit with
  | here p => exact (validateFrom_step h hslot).1
  | step hfirst _ ih =>
    obtain ⟨-, seen, hrest⟩ := validateFrom_step h hfirst
    exact ih hrest hslot

/-- A slot that is not the second half of a wide load begins an instruction. -/
theorem scans_of_ne_zero {exit : Bool} {p : ℕ} (h : validateFrom code p exit (code.drop p) = true)
    (hle : p ≤ q) (hslot : code[q]? = some i) (hcode : i.code ≠ 0) : Scans code p q := by
  induction hdistance : q - p using Nat.strong_induction_on generalizing p exit with
  | _ distance ih =>
    rcases Nat.eq_or_lt_of_le hle with rfl | hlt
    · exact Scans.here p
    have hq := (List.getElem?_eq_some_iff.mp hslot).1
    obtain ⟨first, hfirst⟩ : ∃ first, code[p]? = some first :=
      ⟨_, List.getElem?_eq_getElem (hlt.trans hq)⟩
    obtain ⟨haccepted, seen, hrest⟩ := validateFrom_step h hfirst
    have hwidth : p + first.width ≤ q := by
      unfold BpfInsn.width
      split
      · rename_i hwide
        by_contra hsecond
        have heq : q = p + 1 := by omega
        obtain ⟨hi, hhi, hvalid⟩ := haccepted.wide hwide
        rw [heq, hhi] at hslot
        obtain rfl := Option.some.inj hslot
        simp [validWide, hcode] at hvalid
      · exact hlt
    have hpos : 0 < first.width := by
      unfold BpfInsn.width
      split <;> decide
    exact Scans.step hfirst (ih (q - (p + first.width)) (by omega) hrest hwidth rfl)

theorem validateFrom_of_valid (h : bpfValidate code = true) :
    validateFrom code 0 false (code.drop 0) = true := by
  unfold bpfValidate at h
  split at h
  · cases h
  · exact h

/-- In a validated program an opcode of a wide load is one, and it is followed by its second slot. -/
theorem validWide_of_code (hvalid : bpfValidate code = true) (hslot : code[pc]? = some i) (hwide : i.code = 0x18) :
    ∃ hi, code[pc + 1]? = some hi ∧ validWide i hi = true := by
  have hne : i.code ≠ 0 := by
    rw [hwide]
    decide
  have hscans := scans_of_ne_zero (validateFrom_of_valid hvalid) (Nat.zero_le pc) hslot hne
  exact (accepted_of_scans (validateFrom_of_valid hvalid) hscans hslot).wide hwide

theorem code_of_validWide {hi : BpfInsn} (h : validWide i hi = true) : hi.code = 0 := by
  by_contra hne
  simp [validWide, hne] at h

/-- An instruction that passes the checks has an opcode. -/
theorem Accepted.code_ne_zero (h : Accepted code pc i) : i.code ≠ 0 := by
  intro hzero
  have hwide : i.code ≠ 0x18 := by
    rw [hzero]
    decide
  have hcls : i.cls = 0 := by
    rw [BpfInsn.cls, hzero]
    rfl
  have hnarrow := h.narrow hwide
  rw [validNarrow, hcls] at hnarrow
  exact absurd hnarrow Bool.false_ne_true

theorem length_of_valid (h : bpfValidate code = true) :
    0 < code.length ∧ code.length ≤ bpfMaxInsns := by
  unfold bpfValidate at h
  split at h
  · cases h
  · rename_i hlength
    simp only [Bool.or_eq_true, beq_iff_eq, decide_eq_true_eq, not_or, Nat.not_lt] at hlength
    exact ⟨Nat.pos_of_ne_zero hlength.1, hlength.2⟩

/-- From the instruction at `pc` a validated program goes on at an instruction, or behind the last. -/
theorem Moves.firstSlot (hvalid : bpfValidate code = true) (hpc : FirstSlot code pc)
    (hslot : code[pc]? = some i) (h : Moves code pc i q) : q = code.length ∨ FirstSlot code q := by
  have hnext := hpc.2.next hslot
  cases h with
  | next hcode =>
    rw [BpfInsn.width, if_neg hcode] at hnext
    rcases Nat.eq_or_lt_of_le hpc.1 with hend | hlt
    · exact Or.inl hend
    · exact Or.inr ⟨hlt, hnext⟩
  | wide hcode hlt =>
    rw [BpfInsn.width, if_pos hcode] at hnext
    rcases Nat.eq_or_lt_of_le hlt with hend | hlt'
    · exact Or.inl hend
    · exact Or.inr ⟨hlt', hnext⟩
  | jump hthere hcode =>
    have hscans := scans_of_ne_zero (validateFrom_of_valid hvalid) (Nat.zero_le q) hthere hcode
    exact Or.inr ⟨(List.getElem?_eq_some_iff.mp hthere).1, hscans⟩

/-! ## Reasons to stop -/

/-- The reasons that depend on values and not on the form of the program. -/
inductive Halt.Permitted : Halt → Prop
  | exit (value : UInt64) : Halt.Permitted (.exit value)
  | refused : Halt.Permitted .refused
  | lookup : Halt.Permitted .lookup
  | fuel : Halt.Permitted .fuel
  | pastEnd : Halt.Permitted .pastEnd

theorem BpfInsn.IsAlu.valid (hcls : i.IsAlu) (h : validNarrow code pc i = true) :
    validAlu i = true := by
  have halu : (i.cls == 4 || i.cls == 7) = true := by simpa using hcls.2
  rwa [validNarrow, if_pos halu] at h

theorem BpfInsn.IsAccess.valid (hcls : i.IsAccess) (h : validNarrow code pc i = true) :
    validAccess i = true := by
  have halu : ¬ (i.cls == 4 || i.cls == 7) = true := by simpa using hcls.2.1
  have haccess : (i.cls == 1 || i.cls == 2 || i.cls == 3) = true := by
    simpa [or_assoc] using hcls.2.2
  rwa [validNarrow, if_neg halu, if_pos haccess] at h

theorem BpfInsn.IsBranch.valid (hcls : i.IsBranch) (h : validNarrow code pc i = true) :
    validBranch code pc i = true := by
  have halu : ¬ (i.cls == 4 || i.cls == 7) = true := by simpa using hcls.2.1
  have haccess : ¬ (i.cls == 1 || i.cls == 2 || i.cls == 3) = true := by
    simpa [or_assoc] using hcls.2.2.1
  have hbranch : (i.cls == 5 || i.cls == 6) = true := by simpa using hcls.2.2.2
  rwa [validNarrow, if_neg halu, if_neg haccess, if_pos hbranch] at h

/-- The values of the upper half of an opcode. -/
def operations : List UInt8 := [0x00, 0x10, 0x20, 0x30, 0x40, 0x50, 0x60, 0x70, 0x80, 0x90, 0xa0, 0xb0,
  0xc0, 0xd0, 0xe0, 0xf0]

theorem BpfInsn.op_mem (i : BpfInsn) : i.op ∈ operations := by
  have hall : ∀ n : Fin 256, UInt8.ofFin n &&& 0xf0 ∈ operations := by decide +kernel
  exact hall i.code.toFin

theorem aluValue_ne_none {op : UInt8} (hop : op ∈ operations) (hle : ¬ op > 0xc0) (wide : Bool)
    (a b : UInt64) : aluValue op wide a b ≠ none := by
  simp only [operations, List.mem_cons, List.not_mem_nil, or_false] at hop
  rcases hop with rfl | rfl | rfl | rfl | rfl | rfl | rfl | rfl | rfl | rfl | rfl | rfl | rfl | rfl |
    rfl | rfl
  all_goals first
    | exact absurd (by decide) hle
    | simp [aluValue]

theorem taken_ne_none {op : UInt8} (hop : op ∈ operations) (hcall : op ≠ 0x80) (hexit : op ≠ 0x90)
    (hle : ¬ op > 0xd0) (a b : UInt64) (sa sb : ℤ) : taken op a b sa sb ≠ none := by
  simp only [operations, List.mem_cons, List.not_mem_nil, or_false] at hop
  rcases hop with rfl | rfl | rfl | rfl | rfl | rfl | rfl | rfl | rfl | rfl | rfl | rfl | rfl | rfl |
    rfl | rfl
  all_goals first
    | exact absurd rfl hcall
    | exact absurd rfl hexit
    | exact absurd (by decide) hle
    | simp [taken]

/-- The map of a validated load exists. -/
theorem wideValue_lt {hi : BpfInsn} (hvalid : validWide i hi = true) (hsrc : i.src ≠ 0) :
    wideValue i hi < 7 := by
  have himmediate : 0 ≤ i.immediate ∧ i.immediate < 7 ∧ hi.immediate = 0 := by
    simp only [validWide, Bool.and_eq_true, Bool.not_eq_true', Bool.or_eq_false_iff,
      Bool.and_eq_false_iff, decide_eq_false_iff_not, bne_eq_false_iff_eq] at hvalid
    obtain ⟨-, hsource | ⟨⟨hlow, hhigh⟩, hupper⟩⟩ := hvalid
    · exact absurd hsource hsrc
    · exact ⟨Int32.not_lt.mp hlow, Int32.not_le.mp hhigh, hupper⟩
  obtain ⟨hlow, hhigh, hupper⟩ := himmediate
  have hseven : (7 : Int32).toInt = 7 := rfl
  have hint : i.immediate.toInt = i.immediate.toBitVec.toInt := rfl
  have hnat : i.immediate.toUInt32.toNat = i.immediate.toBitVec.toNat := rfl
  have hbound := i.immediate.toBitVec.isLt
  rw [Int32.le_iff_toInt_le, Int32.toInt_zero, hint, BitVec.toInt_eq_toNat_cond] at hlow
  rw [Int32.lt_iff_toInt_lt, hseven, hint, BitVec.toInt_eq_toNat_cond] at hhigh
  have hvalue : (wideValue i hi).toNat = i.immediate.toUInt32.toNat := by
    have hzero : (0 : Int32).toUInt32.toUInt64 <<< 32 = 0 := rfl
    rw [wideValue, hupper, hzero, UInt64.or_zero, UInt32.toNat_toUInt64]
  rw [UInt64.lt_iff_toNat_lt, hvalue, hnat]
  change i.immediate.toBitVec.toNat < 7
  split_ifs at hlow hhigh with hhalf
  · omega
  · omega

theorem Stops.permitted {reason : Halt} (haccepted : Accepted code pc i)
    (h : Stops code pc i reason) : reason.Permitted := by
  have hnarrow := haccepted.narrow
  cases h with
  | exit value => exact Halt.Permitted.exit value
  | refused => exact Halt.Permitted.refused
  | lookup => exact Halt.Permitted.lookup
  | register h =>
    have hdst := haccepted.dst_le
    have hsrc := haccepted.src_le
    omega
  | wide hcode h =>
    obtain ⟨hi, hslot, hvalid⟩ := haccepted.wide hcode
    have hlt := (List.getElem?_eq_some_iff.mp hslot).1
    simp [validWide] at hvalid
    omega
  | mapId hcode hi hslot hsrc hvalue =>
    obtain ⟨other, hother, hvalid⟩ := haccepted.wide hcode
    obtain rfl := Option.some.inj (hslot.symm.trans hother)
    exact absurd (wideValue_lt hvalid hsrc) (UInt64.not_lt.mpr hvalue)
  | framePointer hcls h =>
    have hvalid := hcls.valid (hnarrow hcls.1)
    simp [validAlu, h] at hvalid
  | byteOrder hcls hop h =>
    have hvalid := hcls.valid (hnarrow hcls.1)
    simp [validAlu, hop] at hvalid
    rcases h with hwide | himmediate
    · simp_all
    · simp_all
  | aluOperation hcls hop a b h =>
    refine absurd h (aluValue_ne_none i.op_mem ?_ _ a b)
    have hvalid := hcls.valid (hnarrow hcls.1)
    intro hgt
    simp [validAlu, hop, hgt] at hvalid
  | mode hcls h =>
    have hvalid := hcls.valid (hnarrow hcls.1)
    simp [validAccess] at hvalid
    rcases h with hmode | ⟨hload, hframe⟩
    · exact absurd hvalid.1 hmode
    · simp_all
  | helper hcls hcode h =>
    have hvalid := hcls.valid (hnarrow hcls.1)
    have hop : i.op = 0x80 := by
      rw [BpfInsn.op, hcode]
      rfl
    simp [validBranch, hop, h] at hvalid
  | jumpOperation hcls hexit hcall a b sa sb h =>
    have hvalid := hcls.valid (hnarrow hcls.1)
    refine absurd h (taken_ne_none i.op_mem ?_ ?_ ?_ a b sa sb)
    · intro hop
      simp [validBranch, hop, hcall] at hvalid
    · intro hop
      simp [validBranch, hop, hexit] at hvalid
    · intro hgt
      have hcallOp : i.op ≠ 0x80 := fun hop ↦ absurd (hop ▸ hgt) (by decide)
      have hexitOp : i.op ≠ 0x90 := fun hop ↦ absurd (hop ▸ hgt) (by decide)
      simp [validBranch, hcallOp, hexitOp, hgt] at hvalid
  | target hcls hexit hcall h =>
    have hvalid := hcls.valid (hnarrow hcls.1)
    simp [validBranch, h, hexit, hcall] at hvalid
  | opcode hwide hcls haccess hbranch =>
    have hvalid := hnarrow hwide
    simp_all [validNarrow]

/-- A validated program is always at an instruction or behind the last one, and a run ends in one of
five ways: any other way would be an access outside a buffer shorter than the environment says. -/
theorem bpfExecute_of_valid (code : List BpfInsn) (hvalid : bpfValidate code = true)
    (e : BpfEnvironment) :
    (∀ vm, Reaches code e vm → vm.pc = code.length ∨ FirstSlot code vm.pc) ∧
    ((bpfExecute code e).1.Permitted ∨
      ((bpfExecute code e).1 = .outOfBounds ∧ ¬ e.WellSized)) := by
  have hstart : (start e).Confined e ∧
      ((start e).pc = code.length ∨ FirstSlot code (start e).pc) := by
    refine ⟨start_confined e, Or.inr ⟨?_, Scans.here 0⟩⟩
    exact (length_of_valid hvalid).1
  have hstep : ∀ vm : Vm, vm.Confined e ∧ (vm.pc = code.length ∨ FirstSlot code vm.pc) →
      vm.pc < code.length → Ensures (step code) vm
        (fun _ t ↦ t.Confined e ∧ (t.pc = code.length ∨ FirstSlot code t.pc))
        (fun reason _ ↦ reason.Permitted ∨ (reason = .outOfBounds ∧ ¬ e.WellSized)) := by
    rintro vm ⟨hvm, hpc⟩ hlt
    have hfirst : FirstSlot code vm.pc := hpc.resolve_left (Nat.ne_of_lt hlt)
    have hslot := List.getElem?_eq_getElem hlt
    have haccepted := accepted_of_scans (validateFrom_of_valid hvalid) hfirst.2 hslot
    refine (step_runs hvm hslot).mono (fun _ t ht ↦ ⟨ht.1, ht.2.firstSlot hvalid hfirst hslot⟩) ?_
    exact fun reason t ht ↦ ht.2.imp_left fun hstops ↦ hstops.permitted haccepted
  constructor
  · intro vm hvm
    exact (hvm.invariant hstart hstep).2
  · obtain ⟨hpos, hmax⟩ := length_of_valid hvalid
    refine bpfExecute_ensures hstart ?_ hstep ?_ ?_
    · intro hbad
      omega
    · exact fun _ _ _ ↦ Or.inl Halt.Permitted.fuel
    · exact fun _ _ _ ↦ Or.inl Halt.Permitted.pastEnd

theorem bpfExecute_of_valid_counter :
    (∀ vm, Reaches counterProgram counterEnvironment vm →
      vm.pc = counterProgram.length ∨ FirstSlot counterProgram vm.pc) ∧
    ((bpfExecute counterProgram counterEnvironment).1.Permitted ∨
      ((bpfExecute counterProgram counterEnvironment).1 = .outOfBounds ∧
        ¬ counterEnvironment.WellSized)) :=
  bpfExecute_of_valid counterProgram (by decide +kernel) counterEnvironment

end JordyOS.Bpf
