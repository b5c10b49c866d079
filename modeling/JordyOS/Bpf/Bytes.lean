import JordyOS.Bpf.Vm
import JordyOS.Machine.Words
import Mathlib.Data.List.GetD
import Mathlib.Logic.Function.Basic
import Mathlib.Tactic.Common

/-!
# Bytes behind a pointer

What single loads and stores do to the objects of the interpreter, and the numbers its byte loops read
and write.
-/

namespace JordyOS.Bpf

open Machine

/-! ## Reading -/

/-- What a pointer sees of its object. -/
def Vm.view (vm : Vm) (p : Pointer) : Memory := fun i ↦ ((vm.bytes p.region).getD []).getD (p.offset + i) 0

/-- The first `size` bytes behind the pointer exist. -/
def Vm.Holds (vm : Vm) (p : Pointer) (size : ℕ) : Prop :=
  ∃ bytes, vm.bytes p.region = some bytes ∧ p.offset + size ≤ bytes.length

variable {vm : Vm} {p : Pointer} {size : ℕ}

theorem Vm.Holds.le (h : vm.Holds p size) {less : ℕ} (hle : less ≤ size) : vm.Holds p less := by
  obtain ⟨bytes, hbytes, hlength⟩ := h
  exact ⟨bytes, hbytes, by omega⟩

theorem load_returns (h : vm.Holds p size) {i : ℕ} (hi : i < size) :
    Returns (load p i) vm (vm.view p i) vm := by
  obtain ⟨bytes, hbytes, hlength⟩ := h
  have hlt : p.offset + i < bytes.length := by omega
  have hbyte : (vm.bytes p.region).bind (·[p.offset + i]?) = some (vm.view p i) := by
    unfold Vm.view
    rw [hbytes, Option.bind_some, Option.getD_some, List.getD_eq_getElem _ _ hlt,
      List.getElem?_eq_getElem hlt]
  refine Returns.bind Returns.get ?_
  rw [hbyte]
  exact Returns.pure

/-- The number `read_le` puts together. -/
def leWord (view : Memory) (size : ℕ) : UInt64 :=
  (List.range size).foldl (fun n i ↦ n ||| ((view i).toUInt64 <<< UInt64.ofNat (i * 8))) 0

theorem toNat_leWord (view : Memory) {size : ℕ} (hsize : size ≤ 8) :
    (leWord view size).toNat = view.readWord 0 size := by
  induction size with
  | zero => rfl
  | succ size ih =>
    have hlt : size * 8 < 64 := by omega
    have hbelow := view.readWord_lt 0 size
    have hpower : 256 ^ size = 2 ^ (size * 8) := by
      rw [Nat.mul_comm, pow_mul]
      rfl
    have hroom : (view size).toNat * 2 ^ (size * 8) < 2 ^ 64 := by
      calc (view size).toNat * 2 ^ (size * 8) < 256 * 256 ^ size := by
            rw [← hpower]
            exact Nat.mul_lt_mul_of_pos_right (view size).toNat_lt (Nat.pow_pos (by decide))
        _ = 256 ^ (size + 1) := Nat.pow_succ'.symm
        _ ≤ 256 ^ 8 := Nat.pow_le_pow_right (by decide) hsize
    have hshift : ((view size).toUInt64 <<< UInt64.ofNat (size * 8)).toNat =
        2 ^ (size * 8) * (view size).toNat := by
      rw [UInt64.toNat_shiftLeft, UInt64.toNat_ofNat_of_lt' (hlt.trans (by decide)),
        Nat.mod_eq_of_lt hlt, Nat.shiftLeft_eq, UInt8.toNat_toUInt64, Nat.mod_eq_of_lt hroom,
        Nat.mul_comm]
    have hstep : leWord view (size + 1) =
        leWord view size ||| ((view size).toUInt64 <<< UInt64.ofNat (size * 8)) := by
      unfold leWord
      rw [List.range_succ, List.foldl_append, List.foldl_cons, List.foldl_nil]
    rw [hstep, UInt64.toNat_or, ih (by omega), hshift, Nat.or_comm,
      ← Nat.two_pow_add_eq_or_of_lt (hpower ▸ hbelow), Memory.readWord_succ, hpower, Nat.zero_add,
      Nat.add_comm]

theorem readLe_returns (h : vm.Holds p size) :
    Returns (readLe p size) vm (leWord (vm.view p) size) vm :=
  Returns.foldlM fun _ _ hi ↦ Returns.bind (load_returns h (List.mem_range.mp hi)) Returns.pure

/-- The first word behind a pointer. -/
theorem toNat_firstWord (view : Memory) : (leWord view 4).toUInt32.toNat = view.readWord 0 4 := by
  rw [UInt64.toNat_toUInt32, toNat_leWord view (by decide)]
  exact Nat.mod_eq_of_lt (view.readWord_lt 0 4)

/-! ## Writing -/

/-- The byte of an object, if it exists. -/
def Vm.byteAt (vm : Vm) (region : Region) (k : ℕ) : Option UInt8 := (vm.bytes region).bind (·[k]?)

theorem Vm.view_eq (vm : Vm) (p : Pointer) (k : ℕ) :
    vm.view p k = (vm.byteAt p.region (p.offset + k)).getD 0 := by
  unfold Vm.view Vm.byteAt
  cases vm.bytes p.region with
  | none => rfl
  | some bytes => exact List.getD_eq_getElem?_getD

theorem setMap_maps (e : BpfEnvironment) (id other : Fin bpfMaps) (m : BpfMap) :
    (e.setMap id m).maps other = if other = id then m else e.maps other :=
  Function.update_apply _ _ _ _

theorem bytes_setBytes (vm : Vm) (region other : Region) (bytes : List UInt8) :
    (vm.setBytes region bytes).bytes other = if other = region then some bytes else vm.bytes other := by
  cases region with
  | stack | context | packet => cases other <;> rfl
  | values id =>
    cases other with
    | stack | context | packet => rfl
    | values there =>
      change ((vm.environment.setMap id _).maps there).values = _
      rw [setMap_maps]
      by_cases h : there = id <;> simp [h, Vm.bytes]
    | keys there =>
      change ((vm.environment.setMap id _).maps there).keys = _
      rw [setMap_maps]
      by_cases h : there = id <;> simp [h, Vm.bytes]
  | keys id =>
    cases other with
    | stack | context | packet => rfl
    | values there =>
      change ((vm.environment.setMap id _).maps there).values = _
      rw [setMap_maps]
      by_cases h : there = id <;> simp [h, Vm.bytes]
    | keys there =>
      change ((vm.environment.setMap id _).maps there).keys = _
      rw [setMap_maps]
      by_cases h : there = id <;> simp [h, Vm.bytes]

/-- `p[i] = byte`. -/
def Vm.put (vm : Vm) (p : Pointer) (i : ℕ) (byte : UInt8) : Vm :=
  vm.setBytes p.region (((vm.bytes p.region).getD []).set (p.offset + i) byte)

theorem store_returns (h : vm.Holds p size) {i : ℕ} (hi : i < size) (byte : UInt8) :
    Returns (store p i byte) vm ⟨⟩ (vm.put p i byte) := by
  obtain ⟨bytes, hbytes, hlength⟩ := h
  have hlt : p.offset + i < bytes.length := by omega
  refine Returns.bind Returns.get ?_
  unfold Vm.put
  rw [hbytes]
  exact Returns.ite_pos hlt rfl

theorem byteAt_put (h : vm.Holds p size) {i : ℕ} (hi : i < size) (byte : UInt8) (region : Region)
    (k : ℕ) : (vm.put p i byte).byteAt region k =
      if region = p.region ∧ k = p.offset + i then some byte else vm.byteAt region k := by
  obtain ⟨bytes, hbytes, hlength⟩ := h
  unfold Vm.put Vm.byteAt
  rw [bytes_setBytes]
  by_cases hregion : region = p.region
  · rw [if_pos hregion, hregion, hbytes, Option.bind_some, Option.getD_some, Option.bind_some,
      List.getElem?_set]
    by_cases hk : p.offset + i = k
    · rw [if_pos hk, if_pos (by omega), if_pos ⟨rfl, hk.symm⟩]
    · rw [if_neg hk, if_neg fun hplace ↦ hk hplace.2.symm]
  · rw [if_neg hregion, if_neg fun hplace ↦ hregion hplace.1]

end JordyOS.Bpf
