import JordyOS.Bpf.Confinement

/-!
# One instruction

What a round of the interpreter can do, said once for all programs: where the program counter goes,
for which reasons the run stops, and that the state stays confined.  Whatever holds of whole runs
follows from this and the loop rule.
-/

namespace JordyOS.Bpf

open Machine

/-! ## What a round can do -/

/-- Where the program counter goes from the instruction `i` at `pc`. -/
inductive Moves (code : List BpfInsn) (pc : ℕ) (i : BpfInsn) : ℕ → Prop
  | next (hcode : i.code ≠ 0x18) : Moves code pc i (pc + 1)
  | wide (hcode : i.code = 0x18) (hlt : pc + 1 < code.length) : Moves code pc i (pc + 2)
  | jump {q : ℕ} {there : BpfInsn} (hthere : code[q]? = some there) (hcode : there.code ≠ 0) :
      Moves code pc i q

/-- The instruction `i` at `pc` is an arithmetic one. -/
def BpfInsn.IsAlu (i : BpfInsn) : Prop := i.code ≠ 0x18 ∧ (i.cls = 4 ∨ i.cls = 7)

def BpfInsn.IsAccess (i : BpfInsn) : Prop :=
  i.code ≠ 0x18 ∧ ¬ (i.cls = 4 ∨ i.cls = 7) ∧ (i.cls = 1 ∨ i.cls = 2 ∨ i.cls = 3)

def BpfInsn.IsBranch (i : BpfInsn) : Prop :=
  i.code ≠ 0x18 ∧ ¬ (i.cls = 4 ∨ i.cls = 7) ∧ ¬ (i.cls = 1 ∨ i.cls = 2 ∨ i.cls = 3) ∧
    (i.cls = 5 ∨ i.cls = 6)

/-- The value a wide load reads from its two slots. -/
def wideValue (i hi : BpfInsn) : UInt64 :=
  i.immediate.toUInt32.toUInt64 ||| (hi.immediate.toUInt32.toUInt64 <<< 32)

/-- For which reasons the instruction `i` at `pc` may end the run. -/
inductive Stops (code : List BpfInsn) (pc : ℕ) (i : BpfInsn) : Halt → Prop
  | exit (value : UInt64) : Stops code pc i (.exit value)
  | refused : Stops code pc i .refused
  | lookup : Stops code pc i .lookup
  | register (h : i.dst > 10 ∨ i.src > 10) : Stops code pc i .register
  | wide (hcode : i.code = 0x18) (h : pc + 1 ≥ code.length ∨ i.dst = 10 ∨ i.src > 1) :
      Stops code pc i .wide
  | mapId (hcode : i.code = 0x18) (hi : BpfInsn) (hslot : code[pc + 1]? = some hi)
      (hsrc : i.src ≠ 0) (hvalue : wideValue i hi ≥ 7) : Stops code pc i .mapId
  | framePointer (hcls : i.IsAlu) (h : i.dst = 10) : Stops code pc i .framePointer
  | byteOrder (hcls : i.IsAlu) (hop : i.op = 0xd0) (h : (i.cls == 7) = true ∨
      (i.immediate ≠ 16 ∧ i.immediate ≠ 32 ∧ i.immediate ≠ 64)) : Stops code pc i .byteOrder
  | aluOperation (hcls : i.IsAlu) (hop : i.op ≠ 0xd0) (a b : UInt64)
      (h : aluValue i.op (i.cls == 7) a b = none) : Stops code pc i .aluOperation
  | mode (hcls : i.IsAccess) (h : i.code &&& 0xe0 ≠ 0x60 ∨ (i.cls = 1 ∧ i.dst = 10)) :
      Stops code pc i .mode
  | helper (hcls : i.IsBranch) (hcode : i.code = 0x85) (h : i.immediate ≠ 1) :
      Stops code pc i .helper
  | jumpOperation (hcls : i.IsBranch) (hexit : i.code ≠ 0x95) (hcall : i.code ≠ 0x85) (a b : UInt64)
      (sa sb : ℤ) (h : taken i.op a b sa sb = none) : Stops code pc i .jumpOperation
  | target (hcls : i.IsBranch) (hexit : i.code ≠ 0x95) (hcall : i.code ≠ 0x85)
      (h : target code pc i.offset = false) : Stops code pc i .target
  | opcode (hwide : i.code ≠ 0x18) (hcls : ¬ (i.cls = 4 ∨ i.cls = 7))
      (haccess : ¬ (i.cls = 1 ∨ i.cls = 2 ∨ i.cls = 3)) (hbranch : ¬ (i.cls = 5 ∨ i.cls = 6)) :
      Stops code pc i .opcode

section Running

variable {α : Type} (e : BpfEnvironment)

/-- From a confined state the program stays confined; `moves` and `stops` say how it goes on. -/
def Runs (x : Exec PUnit) (vm : Vm) (moves : ℕ → Prop) (stops : Halt → Prop) : Prop :=
  Ensures x vm (fun _ t ↦ t.Confined e ∧ moves t.pc)
    (fun h t ↦ t.Confined e ∧ (stops h ∨ e.Outside h))

variable {e} {vm : Vm} {moves : ℕ → Prop} {stops : Halt → Prop}

theorem Runs.throw (h : vm.Confined e) {halt : Halt} (hstops : stops halt) :
    Runs e (MonadExcept.throw halt) vm moves stops := ⟨h, Or.inl hstops⟩

theorem Runs.reads {x : Exec α} {f : α → Exec PUnit} {post : α → Prop} (h : vm.Confined e)
    (hx : Reads e x vm post) (hf : ∀ a, post a → Runs e (f a) vm moves stops) :
    Runs e (x >>= f) vm moves stops :=
  hx.ensures hf fun _ houtside ↦ ⟨h, Or.inr houtside⟩

theorem Runs.ite {x y : Exec PUnit} {p : Prop} [Decidable p]
    (htrue : p → Runs e x vm moves stops) (hfalse : ¬ p → Runs e y vm moves stops) :
    Runs e (if p then x else y) vm moves stops :=
  Ensures.ite htrue hfalse

theorem Runs.bind {x : Exec PUnit} {f : PUnit → Exec PUnit} {between : ℕ → Prop}
    (hx : Runs e x vm between stops)
    (hf : ∀ t, t.Confined e → between t.pc → Runs e (f ⟨⟩) t moves stops) :
    Runs e (x >>= f) vm moves stops := by
  refine Ensures.bind (hx.mono ?_ fun _ _ hstop ↦ hstop)
  rintro - t ⟨ht, hpc⟩
  exact hf t ht hpc

theorem Runs.weaken {x : Exec PUnit} {other : ℕ → Prop} {less : Halt → Prop}
    (hx : Runs e x vm other less) (hmoves : ∀ q, other q → moves q)
    (hstops : ∀ h, less h → stops h) : Runs e x vm moves stops :=
  hx.mono (fun _ _ ht ↦ ⟨ht.1, hmoves _ ht.2⟩) fun h _ ht ↦ ⟨ht.1, ht.2.imp_left (hstops h)⟩

/-- A loop whose rounds leave the program counter alone. -/
theorem Runs.forM {body : α → Exec PUnit} {l : List α} {q : ℕ} (h : vm.Confined e) (hpc : vm.pc = q)
    (hbody : ∀ a ∈ l, ∀ t, t.Confined e → t.pc = q → Runs e (body a) t (· = q) stops) :
    Runs e (l.forM body) vm (· = q) stops := by
  refine Ensures.forM (fun t : Vm ↦ t.Confined e ∧ t.pc = q) ⟨h, hpc⟩ ?_
  rintro a ha t ⟨ht, htpc⟩
  exact hbody a ha t ht htpc

/-! ## Writing -/

/-- No instruction writes r10. -/
theorem setRegister_runs (h : vm.Confined e) {n : ℕ} (hn : n < 10) (value : UInt64) :
    Runs e (setRegister n value) vm (· = vm.pc) stops := by
  have hlt : n < 11 := by omega
  rw [setRegister, dif_pos hlt]
  refine ⟨⟨?_, h.stack, h.environment⟩, rfl⟩
  exact (Vector.getElem_set_ne (by omega) (by omega) (by omega)).trans h.frame

theorem store_runs (h : vm.Confined e) {p : Pointer} {i : ℕ} (hwritable : e.Writable p.region)
    (hinside : e.WellSized → e.Inside p (i + 1)) (byte : UInt8) :
    Runs e (store p i byte) vm (· = vm.pc) stops := by
  refine Runs.reads h (Reads.get rfl) ?_
  rintro _ rfl
  have hextent := h.extent p.region
  cases hbytes : vm.bytes p.region with
  | some bytes =>
    rw [hbytes, Option.map_some] at hextent
    refine Runs.ite (fun _ ↦ ?_) fun hlimit ↦ ?_
    · exact h.setBytes hwritable hbytes List.length_set
    · refine ⟨h, Or.inr ⟨rfl, fun hsized ↦ hlimit ?_⟩⟩
      obtain ⟨limit, hlimit, hle⟩ := hinside hsized
      have heq : bytes.length = limit := Option.some.inj (hextent.trans hlimit)
      omega
  | none =>
    rw [hbytes] at hextent
    refine ⟨h, Or.inr ⟨rfl, fun hsized ↦ ?_⟩⟩
    obtain ⟨limit, hlimit, -⟩ := hinside hsized
    rw [← hextent] at hlimit
    cases hlimit

theorem nextSlot_ensures {code : List BpfInsn} (hlt : vm.pc < code.length)
    {halt : Halt → Vm → Prop} : Ensures (nextSlot code) vm
      (fun i t ↦ code[vm.pc]? = some i ∧ t = { vm with pc := vm.pc + 1 }) halt := by
  refine Ensures.bind (Ensures.get ?_)
  have hslot := List.getElem?_eq_getElem hlt
  rw [hslot]
  exact ⟨rfl, rfl⟩

/-! ## Instructions -/

variable {code : List BpfInsn} {pc : ℕ} {i : BpfInsn}

theorem wideLoad_runs (h : vm.Confined e) (hpc : vm.pc = pc + 1) (hcode : i.code = 0x18)
    (hdst : i.dst ≤ 10) :
    Runs e (wideLoad code i) vm (Moves code pc i) (Stops code pc i) := by
  refine Runs.reads h (Reads.get rfl) ?_
  rintro _ rfl
  rw [hpc]
  refine Runs.ite (fun hbad ↦ Runs.throw h (Stops.wide hcode hbad)) fun hgood ↦ ?_
  simp only [not_or] at hgood
  obtain ⟨hlt, hframe, -⟩ := hgood
  have hslot : vm.pc < code.length := by omega
  refine Ensures.bind ((nextSlot_ensures hslot).mono ?_ fun _ _ hstop ↦ hstop)
  rintro hi t ⟨hhi, rfl⟩
  rw [hpc] at hhi
  have hconfined : Vm.Confined e { vm with pc := vm.pc + 1 } := ⟨h.frame, h.stack, h.environment⟩
  have hmoves : Moves code pc i (vm.pc + 1) := by
    rw [hpc]
    exact Moves.wide hcode (by omega)
  refine Runs.bind (setRegister_runs hconfined (by omega) _) fun u hu hupc ↦ ?_
  refine Runs.ite (fun hsrc ↦ ?_) fun _ ↦ ⟨hu, hupc ▸ hmoves⟩
  refine Runs.ite (fun hvalue ↦ Runs.throw hu (Stops.mapId hcode hi hhi hsrc hvalue)) fun _ ↦ ?_
  refine (setRegister_runs hu (by omega) _).weaken ?_ fun _ hstop ↦ hstop
  rintro q rfl
  exact hupc ▸ hmoves

theorem operand_reads (hsrc : i.src ≤ 10) : Reads e (operand i) vm fun _ ↦ True :=
  Reads.ite (fun _ ↦ getRegister_reads hsrc) fun _ ↦ Reads.pure (by trivial)

theorem alu_runs (h : vm.Confined e) (hcls : i.IsAlu) (hdst : i.dst ≤ 10) (hsrc : i.src ≤ 10) :
    Runs e (alu i) vm (· = vm.pc) (Stops code pc i) := by
  refine Runs.ite (fun hframe ↦ Runs.throw h (Stops.framePointer hcls hframe)) fun hframe ↦ ?_
  refine Runs.reads h (getRegister_reads hdst) fun value _ ↦ ?_
  refine Runs.reads h (operand_reads hsrc) fun b _ ↦ ?_
  refine Runs.ite (fun hop ↦ ?_) fun hop ↦ ?_
  · refine Runs.ite (fun hbad ↦ Runs.throw h (Stops.byteOrder hcls hop hbad)) fun _ ↦ ?_
    exact setRegister_runs h (by omega) _
  · cases hvalue : aluValue i.op (i.cls == 7) (if i.cls == 7 then value else value.toUInt32.toUInt64)
      (if i.cls == 7 then b else b.toUInt32.toUInt64) with
    | none => exact Runs.throw h (Stops.aluOperation hcls hop _ _ hvalue)
    | some a => exact setRegister_runs h (by omega) _

theorem toNat_accessSize (i : BpfInsn) : (UInt32.ofNat (accessSize i)).toNat = accessSize i := by
  unfold accessSize
  split_ifs <;> rfl

theorem access_runs (h : vm.Confined e) (hcls : i.IsAccess) (hdst : i.dst ≤ 10) (hsrc : i.src ≤ 10) :
    Runs e (access i) vm (· = vm.pc) (Stops code pc i) := by
  refine Runs.ite (fun hbad ↦ Runs.throw h (Stops.mode hcls hbad)) fun hgood ↦ ?_
  obtain ⟨-, hframe⟩ := not_or.mp hgood
  have hbase : (if i.cls = 1 then i.src else i.dst) ≤ 10 := by
    split
    · exact hsrc
    · exact hdst
  refine Runs.reads h (getRegister_reads hbase) fun base _ ↦ ?_
  refine Runs.reads h (memory_reads h _ _ _) fun p hp ↦ ?_
  cases p with
  | none => exact Runs.throw h Stops.refused
  | some p =>
    obtain ⟨hinside, hwritable⟩ := hp p rfl
    rw [toNat_accessSize] at hinside
    refine Runs.ite (fun hload ↦ ?_) fun hstore ↦ ?_
    · refine Runs.reads h (readLe_reads h hinside) fun value _ ↦ ?_
      have hne : i.dst ≠ 10 := fun hten ↦ hframe ⟨hload, hten⟩
      exact setRegister_runs h (by omega) value
    · have hvalue : Reads e (storedValue i) vm fun _ ↦ True :=
        Reads.ite (fun _ ↦ getRegister_reads hsrc) fun _ ↦ Reads.pure (by trivial)
      refine Runs.reads h hvalue fun value _ ↦ ?_
      refine Runs.forM h rfl fun byte hbyte t ht htpc ↦ ?_
      have hlt := List.mem_range.mp hbyte
      rw [← htpc]
      refine store_runs ht (hwritable (by simpa using hstore)) (fun hsized ↦ ?_) _
      exact Inside.le (hinside hsized) (by omega)

theorem call_runs (h : vm.Confined e) (hcls : i.IsBranch) (hcode : i.code = 0x85) :
    Runs e (call i) vm (· = vm.pc) (Stops code pc i) := by
  refine Runs.ite (fun hbad ↦ Runs.throw h (Stops.helper hcls hcode hbad)) fun _ ↦ ?_
  refine Runs.reads h (getRegister_reads (by omega)) fun handle _ ↦ ?_
  refine Runs.reads h (getRegister_reads (by omega)) fun keyAddress _ ↦ ?_
  refine Runs.reads h (lookup_reads h handle keyAddress) fun r _ ↦ ?_
  cases r with
  | none => exact Runs.throw h Stops.lookup
  | some result =>
    refine Runs.bind (setRegister_runs h (by omega) result) fun t ht htpc ↦ ?_
    refine Runs.forM ht htpc fun reg hreg u hu hupc ↦ ?_
    rw [← hupc]
    refine setRegister_runs hu ?_ 0
    simp only [List.mem_cons, List.not_mem_nil, or_false] at hreg
    omega

theorem jump_runs (h : vm.Confined e) (hpc : vm.pc = pc + 1) (hcls : i.IsBranch)
    (hexit : i.code ≠ 0x95) (hcall : i.code ≠ 0x85) :
    Runs e (jump code i) vm (Moves code pc i) (Stops code pc i) := by
  refine Runs.reads h (Reads.get rfl) ?_
  rintro _ rfl
  have hnext : (vm.pc : ℤ) + i.offset.toInt = pc + 1 + i.offset.toInt := by
    omega
  rw [hnext]
  have htarget : target code pc i.offset = (decide (0 ≤ (pc : ℤ) + 1 + i.offset.toInt) &&
      decide ((pc : ℤ) + 1 + i.offset.toInt < code.length) &&
      code[((pc : ℤ) + 1 + i.offset.toInt).toNat]?.any (·.code != 0)) := rfl
  revert htarget
  generalize (pc : ℤ) + 1 + i.offset.toInt = next
  intro htarget
  refine Runs.ite (fun hrange ↦ Runs.throw h (Stops.target hcls hexit hcall ?_)) fun hrange ↦ ?_
  · rw [htarget]
    rcases hrange with hlow | hhigh
    · rw [decide_eq_false (by omega), Bool.false_and, Bool.false_and]
    · rw [decide_eq_false (p := next < code.length) (by omega), Bool.and_false, Bool.false_and]
  · have hlt : next.toNat < code.length := by omega
    have hthere := List.getElem?_eq_getElem hlt
    rw [hthere]
    refine Runs.ite (fun hzero ↦ Runs.throw h (Stops.target hcls hexit hcall ?_)) fun hcode ↦ ?_
    · rw [htarget, hthere, Option.any_some, hzero]
      exact Bool.and_false _
    · exact ⟨⟨h.frame, h.stack, h.environment⟩, Moves.jump hthere hcode⟩

theorem branch_runs (h : vm.Confined e) (hpc : vm.pc = pc + 1) (hcls : i.IsBranch)
    (hdst : i.dst ≤ 10) (hsrc : i.src ≤ 10) :
    Runs e (branch code i) vm (Moves code pc i) (Stops code pc i) := by
  have hnext : ∀ q, q = vm.pc → Moves code pc i q := by
    rintro q rfl
    rw [hpc]
    exact Moves.next hcls.1
  refine Runs.ite (fun hexit ↦ ?_) fun hexit ↦ ?_
  · exact Runs.reads h (getRegister_reads (by omega)) fun value _ ↦ Runs.throw h (Stops.exit value)
  refine Runs.ite (fun hcall ↦ (call_runs h hcls hcall).weaken hnext fun _ hstop ↦ hstop) fun hcall ↦ ?_
  refine Runs.reads h (getRegister_reads hdst) fun x _ ↦ ?_
  refine Runs.reads h (operand_reads hsrc) fun y _ ↦ ?_
  dsimp only
  cases htaken : taken i.op (if i.cls == 6 then x.toUInt32.toUInt64 else x)
    (if i.cls == 6 then y.toUInt32.toUInt64 else y)
    (if i.cls == 6 then x.toUInt32.toInt32.toInt else x.toInt64.toInt)
    (if i.cls == 6 then y.toUInt32.toInt32.toInt else y.toInt64.toInt) with
  | none => exact Runs.throw h (Stops.jumpOperation hcls hexit hcall _ _ _ _ htaken)
  | some result =>
    cases result with
    | true => exact jump_runs h hpc hcls hexit hcall
    | false => exact ⟨h, hnext _ rfl⟩

theorem execute_runs (h : vm.Confined e) (hpc : vm.pc = pc + 1) :
    Runs e (execute code i) vm (Moves code pc i) (Stops code pc i) := by
  refine Runs.ite (fun hbad ↦ Runs.throw h (Stops.register hbad)) fun hgood ↦ ?_
  obtain ⟨hdst, hsrc⟩ := not_or.mp hgood
  rw [Nat.not_lt] at hdst hsrc
  refine Runs.ite (fun hwide ↦ wideLoad_runs h hpc hwide hdst) fun hwide ↦ ?_
  have hnext : ∀ q, q = vm.pc → Moves code pc i q := by
    rintro q rfl
    rw [hpc]
    exact Moves.next hwide
  refine Runs.ite (fun halu ↦ ?_) fun halu ↦ ?_
  · exact (alu_runs h ⟨hwide, halu⟩ hdst hsrc).weaken hnext fun _ hstop ↦ hstop
  refine Runs.ite (fun haccess ↦ ?_) fun haccess ↦ ?_
  · exact (access_runs h ⟨hwide, halu, haccess⟩ hdst hsrc).weaken hnext fun _ hstop ↦ hstop
  refine Runs.ite (fun hbranch ↦ ?_) fun hbranch ↦ ?_
  · exact branch_runs h hpc ⟨hwide, halu, haccess, hbranch⟩ hdst hsrc
  · exact Runs.throw h (Stops.opcode hwide halu haccess hbranch)

/-! ## Rounds -/

theorem step_runs (h : vm.Confined e) (hslot : code[vm.pc]? = some i) :
    Runs e (step code) vm (Moves code vm.pc i) (Stops code vm.pc i) := by
  have hlt := (List.getElem?_eq_some_iff.mp hslot).1
  refine Ensures.bind ((nextSlot_ensures hlt).mono ?_ fun _ _ hstop ↦ hstop)
  rintro j t ⟨hj, rfl⟩
  obtain rfl := Option.some.inj (hslot.symm.trans hj)
  refine Ensures.bind (Ensures.modify ?_)
  exact execute_runs ⟨h.frame, h.stack, h.environment⟩ rfl

/-- What each round keeps holds at the end of the loop, if only the rounds stop it as they may. -/
theorem loop_ensures {invariant : Vm → Prop} {halt : Halt → Vm → Prop}
    (hstep : ∀ vm, invariant vm → vm.pc < code.length →
      Ensures (step code) vm (fun _ ↦ invariant) halt)
    (hfuel : ∀ vm, invariant vm → vm.pc < code.length → halt .fuel vm)
    (hend : ∀ vm, invariant vm → code.length ≤ vm.pc → halt .pastEnd vm) (fuel : ℕ)
    (h : invariant vm) : Ensures (loop code fuel) vm (fun _ ↦ invariant) halt := by
  induction fuel generalizing vm with
  | zero =>
    refine Ensures.bind (Ensures.get ?_)
    exact Ensures.ite (fun hlt ↦ Ensures.throw (hfuel vm h hlt))
      fun hle ↦ Ensures.throw (hend vm h (Nat.le_of_not_lt hle))
  | succ fuel ih =>
    refine Ensures.bind (Ensures.get ?_)
    refine Ensures.ite (fun hlt ↦ ?_) fun hle ↦ Ensures.throw (hend vm h (Nat.le_of_not_lt hle))
    exact Ensures.bind ((hstep vm h hlt).mono (fun _ _ ht ↦ ih ht) fun _ _ hstop ↦ hstop)

end Running

end JordyOS.Bpf
