import JordyOS.Bpf.Instruction

/-!
# The interpreter as a sandbox

Facts about whole runs.  A program of any shape, validated or not, makes no access outside an object,
never changes r10, and leaves everything but the values of writable maps as it was.
-/

namespace JordyOS.Bpf

open Machine

variable {code : List BpfInsn} {e : BpfEnvironment}

/-! ## States and results of a run -/

/-- One round of the loop of `bpf_execute`. -/
def Round (code : List BpfInsn) (vm t : Vm) : Prop :=
  vm.pc < code.length ∧ step code vm = .ok ⟨⟩ t

/-- The states in which a round may begin, however much fuel there is. -/
def Reaches (code : List BpfInsn) (e : BpfEnvironment) (vm : Vm) : Prop :=
  Relation.ReflTransGen (Round code) (start e) vm

theorem Reaches.invariant {vm : Vm} {predicate : Vm → Prop} {halt : Halt → Vm → Prop}
    (h : Reaches code e vm) (hstart : predicate (start e))
    (hstep : ∀ vm, predicate vm → vm.pc < code.length →
      Ensures (step code) vm (fun _ ↦ predicate) halt) : predicate vm := by
  induction h with
  | refl => exact hstart
  | tail _ hround ih => exact (hstep _ ih hround.1).of_ok hround.2

/-- What each round keeps from the start on holds of the result. -/
theorem bpfExecute_ensures {predicate : Vm → Prop} {halt : Halt → Vm → Prop}
    (hstart : predicate (start e))
    (hlength : code.length = 0 ∨ code.length > bpfMaxInsns → halt .length (start e))
    (hstep : ∀ vm, predicate vm → vm.pc < code.length →
      Ensures (step code) vm (fun _ ↦ predicate) halt)
    (hfuel : ∀ vm, predicate vm → vm.pc < code.length → halt .fuel vm)
    (hend : ∀ vm, predicate vm → code.length ≤ vm.pc → halt .pastEnd vm) :
    halt (bpfExecute code e).1 (bpfExecute code e).2 := by
  unfold bpfExecute
  split
  · rename_i hcount
    exact hlength hcount
  · have hloop := loop_ensures hstep hfuel hend bpfFuel hstart
    cases hrun : loop code bpfFuel (start e) with
    | ok never _ => exact never.elim
    | error reason t => exact hloop.of_error hrun

/-! ## Confinement -/

theorem start_confined (e : BpfEnvironment) : (start e).Confined e :=
  ⟨rfl, List.length_replicate, BpfEnvironment.Keeps.refl e⟩

/-- One round from a confined state. -/
theorem step_confined {vm : Vm} (h : vm.Confined e) (hlt : vm.pc < code.length) :
    Ensures (step code) vm (fun _ t ↦ t.Confined e)
      (fun reason t ↦ t.Confined e ∧ (reason = .outOfBounds → ¬ e.WellSized)) := by
  refine (step_runs h (List.getElem?_eq_getElem hlt)).mono (fun _ _ ht ↦ ht.1) ?_
  rintro reason t ⟨ht, hreason⟩
  refine ⟨ht, ?_⟩
  rintro rfl
  rcases hreason with hstops | houtside
  · cases hstops
  · exact houtside.2

/-- Whatever the program, no access leaves its object, r10 never changes, and only values of writable
maps differ afterwards. -/
theorem bpfExecute_confined (code : List BpfInsn) (e : BpfEnvironment) (hsized : e.WellSized) :
    (bpfExecute code e).1 ≠ .outOfBounds ∧
    (∀ vm, Reaches code e vm → getElem vm.registers 10 frame_lt = bpfStack + 512) ∧
    getElem (bpfExecute code e).2.registers 10 frame_lt = bpfStack + 512 ∧
    e.Keeps (bpfExecute code e).2.environment := by
  have hrun : (bpfExecute code e).2.Confined e ∧
      ((bpfExecute code e).1 = .outOfBounds → ¬ e.WellSized) := by
    refine bpfExecute_ensures (start_confined e) (fun _ ↦ ⟨start_confined e, fun hlength ↦ by cases hlength⟩)
      (fun vm h hlt ↦ step_confined h hlt) ?_ ?_
    · exact fun vm h _ ↦ ⟨h, fun hfuel ↦ by cases hfuel⟩
    · exact fun vm h _ ↦ ⟨h, fun hend ↦ by cases hend⟩
  refine ⟨fun houtside ↦ hrun.2 houtside hsized, fun vm hvm ↦ ?_, hrun.1.frame, hrun.1.environment⟩
  exact (hvm.invariant (start_confined e) fun _ h hlt ↦ step_confined h hlt).frame

/-- One writable array of two words and one read-only word. -/
def counterEnvironment : BpfEnvironment where
  context := []
  packet := [1, 2, 3, 4]
  contextSize := 0
  packetSize := 4
  maps id :=
    if id = 0 then ⟨bpfArray, 4, 4, 2, 0, some [0, 0, 0, 0, 0, 0, 0, 0], none, true⟩
    else ⟨bpfArray, 4, 4, 1, 0, some [7, 0, 0, 0], none, false⟩

/-- Looks up the second word of map 0 and stores 9 there. -/
def counterProgram : List BpfInsn :=
  [⟨0x62, 0x0a, -4, 1⟩, ⟨0xbf, 0xa2, 0, 0⟩, ⟨0x07, 0x02, 0, -4⟩, ⟨0x18, 0x11, 0, 0⟩, ⟨0, 0, 0, 0⟩,
    ⟨0x85, 0, 0, 1⟩, ⟨0x62, 0, 0, 9⟩, ⟨0x95, 0, 0, 0⟩]

theorem counterEnvironment_wellSized : counterEnvironment.WellSized := by
  refine ⟨by decide, by decide, fun id ↦ ⟨fun bytes hbytes ↦ ?_, fun htype ↦ ?_⟩⟩
  · by_cases hid : id = 0
    · simp only [counterEnvironment, hid, if_pos] at hbytes ⊢
      obtain rfl := Option.some.inj hbytes
      decide
    · simp only [counterEnvironment, if_neg hid] at hbytes ⊢
      obtain rfl := Option.some.inj hbytes
      decide
  · by_cases hid : id = 0
    · simp [counterEnvironment, hid, bpfArray, bpfLpm] at htype
    · simp [counterEnvironment, hid, bpfArray, bpfLpm] at htype

theorem bpfExecute_confined_counter :
    (bpfExecute counterProgram counterEnvironment).1 ≠ .outOfBounds ∧
    (∀ vm, Reaches counterProgram counterEnvironment vm → getElem vm.registers 10 frame_lt = bpfStack + 512) ∧
    (bpfExecute counterProgram counterEnvironment).2.registers[10] = bpfStack + 512 ∧
    counterEnvironment.Keeps (bpfExecute counterProgram counterEnvironment).2.environment :=
  bpfExecute_confined counterProgram counterEnvironment counterEnvironment_wellSized

example : ((bpfExecute counterProgram counterEnvironment).2.environment.maps 0).values =
    some [0, 0, 0, 0, 9, 0, 0, 0] := by decide +kernel

end JordyOS.Bpf
