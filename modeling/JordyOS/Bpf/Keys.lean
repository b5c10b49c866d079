import JordyOS.Bpf.Vm
import JordyOS.Machine.TwoRuns

/-!
# Keys behind the entries of a map

A program cannot tell two environments apart that differ only in keys behind the entries of their maps: both
runs end for the same reason after the same steps, and leave the same values.
-/

namespace JordyOS.Bpf

open Machine

/-! ## Environments that differ in unused keys -/

/-- Two maps with the same values, the same limits and the same keys in the first `entries` places. -/
structure BpfMap.Alike (entries : ℕ) (m n : BpfMap) : Prop where
  type : n.type = m.type
  keySize : n.keySize = m.keySize
  valueSize : n.valueSize = m.valueSize
  capacity : n.capacity = m.capacity
  entries_eq : n.entries = m.entries
  count : m.entries.toNat = entries
  values : n.values = m.values
  writable : n.writable = m.writable
  null : n.keys = none ↔ m.keys = none
  keys : ∀ i < entries * 20, n.keys.bind (·[i]?) = m.keys.bind (·[i]?)

/-- Two states with the same variables. -/
structure Vm.Alike (entries : Fin bpfMaps → ℕ) (s t : Vm) : Prop where
  registers : t.registers = s.registers
  stack : t.stack = s.stack
  pc : t.pc = s.pc
  steps : t.steps = s.steps
  context : t.environment.context = s.environment.context
  packet : t.environment.packet = s.environment.packet
  contextSize : t.environment.contextSize = s.environment.contextSize
  packetSize : t.environment.packetSize = s.environment.packetSize
  maps : ∀ id, (s.environment.maps id).Alike (entries id) (t.environment.maps id)

/-- The pointer does not point to keys. -/
def Pointer.Plain (p : Pointer) : Prop := ∀ id, p.region ≠ .keys id

/-- `count` bytes behind the pointer are not unused keys. -/
def Pointer.Seen (entries : Fin bpfMaps → ℕ) (p : Pointer) (count : ℕ) : Prop :=
  ∀ id, p.region = .keys id → p.offset + count ≤ entries id * 20

variable {entries : Fin bpfMaps → ℕ} {s t : Vm} {code : List BpfInsn} {i : BpfInsn}

theorem Pointer.Plain.seen {p : Pointer} (hp : p.Plain) (count : ℕ) : p.Seen entries count :=
  fun id hid ↦ absurd hid (hp id)

/-- Both runs do the same. -/
abbrev Same (entries : Fin bpfMaps → ℕ) {α : Type} (x : Exec α) (post : α → Prop) (s t : Vm) : Prop :=
  Agree (Vm.Alike entries) post x x s t

/-! ## Accesses -/

theorem getRegister_same (h : s.Alike entries t) (n : ℕ) : Same entries (getRegister n) (fun _ ↦ True) s t := by
  refine Agree.get ?_
  rw [h.registers]
  cases s.registers[n]? with
  | some value => exact Agree.pure h trivial
  | none => exact Agree.throw h

theorem setRegister_same (h : s.Alike entries t) (n : ℕ) (value : UInt64) :
    Same entries (setRegister n value) (fun _ ↦ True) s t := by
  unfold setRegister
  split
  · refine Agree.modify { h with registers := ?_ }
    dsimp only
    rw [h.registers]
  · exact Agree.throw h

/-- A byte that is seen is the same in both states. -/
theorem bytes_same (h : s.Alike entries t) {p : Pointer} {j : ℕ} (hp : p.Seen entries (j + 1)) :
    (t.bytes p.region).bind (·[p.offset + j]?) = (s.bytes p.region).bind (·[p.offset + j]?) := by
  cases hregion : p.region with
  | stack => exact congrArg (fun bytes ↦ (some bytes).bind (·[p.offset + j]?)) h.stack
  | context => exact congrArg (fun bytes ↦ (some bytes).bind (·[p.offset + j]?)) h.context
  | packet => exact congrArg (fun bytes ↦ (some bytes).bind (·[p.offset + j]?)) h.packet
  | values id => exact congrArg (fun bytes ↦ bytes.bind (·[p.offset + j]?)) (h.maps id).values
  | keys id =>
    have hin := hp id hregion
    exact (h.maps id).keys _ (by omega)

theorem load_same (h : s.Alike entries t) {p : Pointer} {j : ℕ} (hp : p.Seen entries (j + 1)) :
    Same entries (load p j) (fun _ ↦ True) s t := by
  refine Agree.get ?_
  rw [bytes_same h hp]
  cases (s.bytes p.region).bind (·[p.offset + j]?) with
  | some byte => exact Agree.pure h trivial
  | none => exact Agree.throw h

theorem setBytes_alike (h : s.Alike entries t) {region : Region} (hregion : ∀ id, region ≠ .keys id)
    (bytes : List UInt8) : (s.setBytes region bytes).Alike entries (t.setBytes region bytes) := by
  cases region with
  | stack => exact { h with stack := rfl }
  | context => exact { h with context := rfl }
  | packet => exact { h with packet := rfl }
  | values id =>
    refine { h with maps := fun other ↦ ?_ }
    change (Function.update s.environment.maps id _ other).Alike _
      (Function.update t.environment.maps id _ other)
    by_cases hother : other = id
    · subst hother
      rw [Function.update_self, Function.update_self]
      exact { h.maps other with values := rfl }
    · rw [Function.update_of_ne hother, Function.update_of_ne hother]
      exact h.maps other
  | keys id => exact absurd rfl (hregion id)

theorem store_same (h : s.Alike entries t) {p : Pointer} (hp : p.Plain) (j : ℕ) (byte : UInt8) :
    Same entries (store p j byte) (fun _ ↦ True) s t := by
  have hbytes : t.bytes p.region = s.bytes p.region := by
    cases hregion : p.region with
    | stack => exact congrArg some h.stack
    | context => exact congrArg some h.context
    | packet => exact congrArg some h.packet
    | values id => exact (h.maps id).values
    | keys id => exact absurd hregion (hp id)
  refine Agree.get ?_
  rw [hbytes]
  cases s.bytes p.region with
  | none => exact Agree.throw h
  | some bytes =>
    exact Agree.ite Iff.rfl (fun _ ↦ Agree.set (setBytes_alike h hp _)) fun _ ↦ Agree.throw h

theorem mapIndex_same (h : s.Alike entries t) (id : ℕ) : Same entries (mapIndex id) (fun _ ↦ True) s t := by
  unfold mapIndex
  split
  · exact Agree.pure h trivial
  · exact Agree.throw h

theorem readLe_same (h : s.Alike entries t) {p : Pointer} {size : ℕ} (hp : p.Seen entries size) :
    Same entries (readLe p size) (fun _ ↦ True) s t := by
  refine Agree.foldlM h trivial fun j hj n u v _ huv ↦ ?_
  have hlt := List.mem_range.mp hj
  refine Agree.bind (load_same huv fun id hid ↦ ?_) fun byte u v _ huv ↦ Agree.pure huv trivial
  have hin := hp id hid
  omega

/-! ## Memory and maps -/

theorem memory_same (h : s.Alike entries t) (address : UInt64) (size : UInt32) (write : Bool) :
    Same entries (memory address size write) (fun r ↦ ∀ p, r = some p → p.Plain) s t := by
  refine Agree.get ?_
  dsimp only
  rw [h.contextSize, h.packetSize]
  have hplain : ∀ (region : Region) (offset : ℕ), (∀ id, region ≠ .keys id) →
      ∀ p, some (Pointer.mk region offset) = some p → p.Plain := by
    rintro region offset hregion _ ⟨⟩
    exact hregion
  refine Agree.ite Iff.rfl (fun _ ↦ Agree.pure h (hplain _ _ nofun)) fun _ ↦ ?_
  refine Agree.ite Iff.rfl (fun _ ↦ Agree.pure h (hplain _ _ nofun)) fun _ ↦ ?_
  refine Agree.ite Iff.rfl (fun _ ↦ Agree.pure h (hplain _ _ nofun)) fun _ ↦ ?_
  refine Agree.ite Iff.rfl (fun _ ↦ Agree.pure h nofun) fun _ ↦ ?_
  refine Agree.bind (mapIndex_same h _) fun id u v _ huv ↦ ?_
  have hmap := h.maps id
  rw [hmap.values, hmap.valueSize, hmap.capacity, hmap.writable]
  exact Agree.ite Iff.rfl (fun _ ↦ Agree.pure huv nofun) fun _ ↦ Agree.pure huv (hplain _ _ nofun)

theorem samePrefix_same (h : s.Alike entries t) {key prefixKey : Pointer} (hkey : key.Plain)
    {bits : ℕ} (hbits : bits ≤ 128) (hfound : prefixKey.Seen entries 20) :
    Same entries (samePrefix key prefixKey bits) (fun _ ↦ True) s t := by
  refine Agree.allM h fun b hb u v huv ↦ ?_
  have hlt := List.mem_range.mp hb
  refine Agree.bind (load_same huv (hkey.seen _)) fun first u v _ huv ↦ ?_
  refine Agree.bind (load_same huv fun id hid ↦ ?_) fun second u v _ huv ↦ Agree.pure huv trivial
  have hin := hfound id hid
  omega

/-- The search reads the keys of entries only. -/
theorem longestPrefix_same (h : s.Alike entries t) (id : Fin bpfMaps) {key : Pointer} (hkey : key.Plain)
    (index : UInt32) :
    Same entries (longestPrefix id (entries id) key index) (fun _ ↦ True) s t := by
  refine Agree.foldlM h trivial fun j hj best u v _ huv ↦ ?_
  have hlt := List.mem_range.mp hj
  have hseen : ∀ count ≤ 20, Pointer.Seen entries ⟨.keys id, j * 20⟩ count := by
    rintro count hcount _ ⟨⟩
    change j * 20 + count ≤ entries id * 20
    omega
  refine Agree.bind (readLe_same huv (hseen 4 (by decide))) fun word u v _ huv ↦ ?_
  refine Agree.ite Iff.rfl (fun _ ↦ Agree.pure huv trivial) fun hbits ↦ ?_
  simp only [Bool.or_eq_true, decide_eq_true_eq, not_or, gt_iff_lt, UInt32.not_lt] at hbits
  have hle : word.toUInt32.toNat ≤ 128 := UInt32.le_iff_toNat_le.mp hbits.1.2
  refine Agree.bind (samePrefix_same huv hkey hle (hseen 20 le_rfl)) fun same u v _ huv ↦ ?_
  exact Agree.ite Iff.rfl (fun _ ↦ Agree.pure huv trivial) fun _ ↦ Agree.pure huv trivial

theorem element_same (h : s.Alike entries t) (id : Fin bpfMaps) (m : BpfMap) (index : UInt32) :
    Same entries (element id m index) (fun _ ↦ True) s t := by
  refine Agree.ite Iff.rfl (fun _ ↦ Agree.pure h trivial) fun _ ↦ ?_
  refine Agree.ite Iff.rfl (fun _ ↦ ?_) fun _ ↦ Agree.pure h trivial
  refine Agree.ite Iff.rfl (fun _ ↦ Agree.pure h trivial) fun _ ↦ ?_
  refine Agree.bind (readLe_same h (Pointer.Plain.seen (fun _ hid ↦ by cases hid) 4)) fun word u v _ huv ↦ ?_
  exact Agree.ite Iff.rfl (fun _ ↦ Agree.pure huv trivial) fun _ ↦ Agree.pure huv trivial

/-- The limits of `element` are those of the map. -/
theorem element_congr {id : Fin bpfMaps} {m n : BpfMap} {count : ℕ} (h : m.Alike count n) (index : UInt32) :
    element id n index = element id m index := by
  unfold element
  rw [h.capacity, h.type, h.valueSize]

theorem lookup_same (h : s.Alike entries t) (handle keyAddress : UInt64) :
    Same entries (lookup handle keyAddress) (fun _ ↦ True) s t := by
  refine Agree.ite Iff.rfl (fun _ ↦ Agree.pure h trivial) fun _ ↦ ?_
  refine Agree.bind (mapIndex_same h _) fun id u v _ huv ↦ Agree.get ?_
  have hmap := huv.maps id
  dsimp only
  rw [hmap.values, hmap.valueSize, hmap.capacity, hmap.keySize]
  refine Agree.ite Iff.rfl (fun _ ↦ Agree.pure huv trivial) fun _ ↦ ?_
  refine Agree.bind (memory_same huv _ _ _) fun key u' v' hkey huv ↦ ?_
  cases key with
  | none => exact Agree.pure huv trivial
  | some key =>
    have hplain := hkey key rfl
    refine Agree.bind (readLe_same huv (hplain.seen 4)) fun word u' v' _ huv ↦ ?_
    rw [hmap.type, hmap.entries_eq, hmap.count]
    refine Agree.ite Iff.rfl (fun _ ↦ ?_) fun _ ↦ ?_
    · refine Agree.ite (by rw [hmap.null]) (fun _ ↦ Agree.pure huv trivial) fun _ ↦ ?_
      refine Agree.bind (longestPrefix_same huv id hplain _) fun best u' v' _ huv ↦ ?_
      cases best with
      | none => exact Agree.pure huv trivial
      | some best =>
        dsimp only
        rw [element_congr hmap]
        exact element_same huv id _ _
    · refine Agree.ite Iff.rfl (fun _ ↦ Agree.pure huv trivial) fun _ ↦ ?_
      rw [element_congr hmap]
      exact element_same huv id _ _

/-! ## Instructions -/

theorem nextSlot_same (h : s.Alike entries t) : Same entries (nextSlot code) (fun _ ↦ True) s t := by
  refine Agree.get ?_
  rw [h.pc]
  cases code[s.pc]? with
  | none => exact Agree.throw h
  | some i =>
    refine Agree.bind (Agree.set { h with pc := rfl }) fun _ u v _ huv ↦ ?_
    exact Agree.pure huv trivial

theorem wideLoad_same (h : s.Alike entries t) : Same entries (wideLoad code i) (fun _ ↦ True) s t := by
  refine Agree.get (Agree.ite (by rw [h.pc]) (fun _ ↦ Agree.throw h) fun _ ↦ ?_)
  refine Agree.bind (nextSlot_same h) fun hi u v _ huv ↦ ?_
  refine Agree.bind (setRegister_same huv _ _) fun _ u v _ huv ↦ ?_
  refine Agree.ite Iff.rfl (fun _ ↦ ?_) fun _ ↦ Agree.pure huv trivial
  exact Agree.ite Iff.rfl (fun _ ↦ Agree.throw huv) fun _ ↦ setRegister_same huv _ _

theorem operand_same (h : s.Alike entries t) : Same entries (operand i) (fun _ ↦ True) s t :=
  Agree.ite Iff.rfl (fun _ ↦ getRegister_same h _) fun _ ↦ Agree.pure h trivial

theorem alu_same (h : s.Alike entries t) : Same entries (alu i) (fun _ ↦ True) s t := by
  refine Agree.ite Iff.rfl (fun _ ↦ Agree.throw h) fun _ ↦ ?_
  refine Agree.bind (getRegister_same h _) fun value u v _ huv ↦ ?_
  refine Agree.bind (operand_same huv) fun b u v _ huv ↦ ?_
  refine Agree.ite Iff.rfl (fun _ ↦ ?_) fun _ ↦ ?_
  · exact Agree.ite Iff.rfl (fun _ ↦ Agree.throw huv) fun _ ↦ setRegister_same huv _ _
  · split
    · exact Agree.throw huv
    · exact setRegister_same huv _ _

theorem storedValue_same (h : s.Alike entries t) : Same entries (storedValue i) (fun _ ↦ True) s t :=
  Agree.ite Iff.rfl (fun _ ↦ getRegister_same h _) fun _ ↦ Agree.pure h trivial

theorem access_same (h : s.Alike entries t) : Same entries (access i) (fun _ ↦ True) s t := by
  refine Agree.ite Iff.rfl (fun _ ↦ Agree.throw h) fun _ ↦ ?_
  refine Agree.bind (getRegister_same h _) fun base u v _ huv ↦ ?_
  refine Agree.bind (memory_same huv _ _ _) fun p u v hp huv ↦ ?_
  cases p with
  | none => exact Agree.throw huv
  | some p =>
    have hplain := hp p rfl
    refine Agree.ite Iff.rfl (fun _ ↦ ?_) fun _ ↦ ?_
    · exact Agree.bind (readLe_same huv (hplain.seen _)) fun word u v _ huv ↦ setRegister_same huv _ _
    · refine Agree.bind (storedValue_same huv) fun value u v _ huv ↦ ?_
      exact Agree.forM huv fun byte _ u v huv ↦ store_same huv hplain _ _

theorem call_same (h : s.Alike entries t) : Same entries (call i) (fun _ ↦ True) s t := by
  refine Agree.ite Iff.rfl (fun _ ↦ Agree.throw h) fun _ ↦ ?_
  refine Agree.bind (getRegister_same h _) fun handle u v _ huv ↦ ?_
  refine Agree.bind (getRegister_same huv _) fun keyAddress u v _ huv ↦ ?_
  refine Agree.bind (lookup_same huv _ _) fun r u v _ huv ↦ ?_
  cases r with
  | none => exact Agree.throw huv
  | some result =>
    refine Agree.bind (setRegister_same huv _ _) fun _ u v _ huv ↦ ?_
    exact Agree.forM huv fun reg _ u v huv ↦ setRegister_same huv _ _

theorem jump_same (h : s.Alike entries t) : Same entries (jump code i) (fun _ ↦ True) s t := by
  refine Agree.get ?_
  dsimp only
  rw [h.pc]
  refine Agree.ite Iff.rfl (fun _ ↦ Agree.throw h) fun _ ↦ ?_
  split
  · exact Agree.throw h
  · exact Agree.ite Iff.rfl (fun _ ↦ Agree.throw h) fun _ ↦ Agree.modify { h with pc := rfl }

theorem branch_same (h : s.Alike entries t) : Same entries (branch code i) (fun _ ↦ True) s t := by
  refine Agree.ite Iff.rfl (fun _ ↦ ?_) fun _ ↦ ?_
  · exact Agree.bind (getRegister_same h _) fun value u v _ huv ↦ Agree.throw huv
  refine Agree.ite Iff.rfl (fun _ ↦ call_same h) fun _ ↦ ?_
  refine Agree.bind (getRegister_same h _) fun x u v _ huv ↦ ?_
  refine Agree.bind (operand_same huv) fun y u v _ huv ↦ ?_
  dsimp only
  split
  · exact Agree.throw huv
  · exact jump_same huv
  · exact Agree.pure huv trivial

theorem execute_same (h : s.Alike entries t) : Same entries (execute code i) (fun _ ↦ True) s t := by
  refine Agree.ite Iff.rfl (fun _ ↦ Agree.throw h) fun _ ↦ ?_
  refine Agree.ite Iff.rfl (fun _ ↦ wideLoad_same h) fun _ ↦ ?_
  refine Agree.ite Iff.rfl (fun _ ↦ alu_same h) fun _ ↦ ?_
  refine Agree.ite Iff.rfl (fun _ ↦ access_same h) fun _ ↦ ?_
  exact Agree.ite Iff.rfl (fun _ ↦ branch_same h) fun _ ↦ Agree.throw h

theorem step_same (h : s.Alike entries t) : Same entries (step code) (fun _ ↦ True) s t := by
  refine Agree.bind (nextSlot_same h) fun i u v _ huv ↦ ?_
  have hsteps : v.steps + 1 = u.steps + 1 := congrArg (· + 1) huv.steps
  refine Agree.bind (Agree.modify { huv with steps := hsteps })
    fun _ u v _ huv ↦ execute_same huv

/-! ## Runs -/

theorem loop_same (h : s.Alike entries t) (fuel : ℕ) : Same entries (loop code fuel) (fun _ ↦ True) s t := by
  induction fuel generalizing s t with
  | zero =>
    exact Agree.get (Agree.ite (by rw [h.pc]) (fun _ ↦ Agree.throw h) fun _ ↦ Agree.throw h)
  | succ fuel ih =>
    refine Agree.get (Agree.ite (by rw [h.pc]) (fun _ ↦ ?_) fun _ ↦ Agree.throw h)
    exact Agree.bind (step_same h) fun _ u v _ huv ↦ ih huv

theorem start_alike {e f : BpfEnvironment} (hcontext : f.context = e.context) (hpacket : f.packet = e.packet)
    (hcontextSize : f.contextSize = e.contextSize) (hpacketSize : f.packetSize = e.packetSize)
    (hmaps : ∀ id, (e.maps id).Alike (entries id) (f.maps id)) : (start e).Alike entries (start f) :=
  ⟨rfl, rfl, rfl, rfl, hcontext, hpacket, hcontextSize, hpacketSize, hmaps⟩

/-- The caller sees the reason and the steps. -/
theorem result_congr {r q : Halt × Vm} (hreason : q.1 = r.1) (hsteps : q.2.steps = r.2.steps) :
    result q = result r := by
  obtain ⟨reason, s⟩ := r
  obtain ⟨other, t⟩ := q
  obtain rfl : other = reason := hreason
  have hsame : t.steps = s.steps := hsteps
  cases other <;> simp only [result, hsame]

/-- The two runs of a program in environments that differ in unused keys. -/
theorem bpfExecute_same {e f : BpfEnvironment} (h : (start e).Alike entries (start f))
    (code : List BpfInsn) : (bpfExecute code f).1 = (bpfExecute code e).1 ∧
      (bpfExecute code e).2.Alike entries (bpfExecute code f).2 := by
  unfold bpfExecute
  split
  · exact ⟨rfl, h⟩
  · have hloop : Same entries (loop code bpfFuel) (fun _ ↦ True) (start e) (start f) := loop_same h bpfFuel
    unfold Same Agree at hloop
    cases hs : loop code bpfFuel (start e) with
    | ok never _ => exact never.elim
    | error reason u =>
      cases ht : loop code bpfFuel (start f) with
      | ok never _ => exact never.elim
      | error other v =>
        rw [hs, ht] at hloop
        exact ⟨hloop.1.symm, hloop.2⟩

end JordyOS.Bpf
