import JordyOS.Machine.Memory
import Mathlib.Algebra.Order.Ring.Nat
import Mathlib.Data.List.Range
import Mathlib.Data.Nat.Bitwise

/-!
# Words in memory

Numbers stored in memory in several bytes, the least significant one first, and masks that round them.
-/

namespace JordyOS.Machine

/-- A mask of the high bits rounds down. -/
theorem and_highBits {n low high : ℕ} (h : n < 2 ^ (low + high)) :
    n &&& (2 ^ low * (2 ^ high - 1)) = n / 2 ^ low * 2 ^ low := by
  refine Nat.eq_of_testBit_eq fun i ↦ ?_
  rw [Nat.mul_comm (n / 2 ^ low), Nat.testBit_and, Nat.testBit_two_pow_mul, Nat.testBit_two_pow_mul,
    Nat.testBit_two_pow_sub_one, Nat.testBit_div_two_pow]
  by_cases hlow : low ≤ i
  · rw [decide_eq_true hlow, Bool.true_and, Bool.true_and, Nat.sub_add_cancel hlow]
    by_cases hhigh : i < low + high
    · rw [decide_eq_true (by omega), Bool.and_true]
    · have hzero : n.testBit i = false :=
        Nat.testBit_lt_two_pow (h.trans_le (Nat.pow_le_pow_right (by decide) (by omega)))
      rw [hzero, Bool.false_and]
  · rw [decide_eq_false hlow, Bool.false_and, Bool.false_and, Bool.and_false]

namespace Memory

/-- The number in the `size` bytes from `offset` on. -/
def readWord (memory : Memory) (offset : ℕ) : ℕ → ℕ
  | 0 => 0
  | size + 1 => (memory offset).toNat + 256 * memory.readWord (offset + 1) size

/-- Store a number; what does not fit into `size` bytes is lost. -/
def writeWord (memory : Memory) (offset size value : ℕ) : Memory := fun i ↦
  if offset ≤ i ∧ i < offset + size then UInt8.ofNat (value / 256 ^ (i - offset)) else memory i

theorem readWord_congr {first second : Memory} {offset size : ℕ}
    (h : ∀ i, offset ≤ i → i < offset + size → first i = second i) :
    first.readWord offset size = second.readWord offset size := by
  induction size generalizing offset with
  | zero => rfl
  | succ size ih =>
    unfold readWord
    rw [h offset le_rfl (by omega), ih fun i hlow hhigh ↦ h i (by omega) (by omega)]

theorem readWord_lt (memory : Memory) (offset size : ℕ) : memory.readWord offset size < 256 ^ size := by
  induction size generalizing offset with
  | zero => exact Nat.one_pos
  | succ size ih =>
    have hrest := ih (offset + 1)
    have hbyte := (memory offset).toNat_lt
    unfold readWord
    rw [Nat.pow_succ']
    omega

/-- The last byte is the most significant one. -/
theorem readWord_succ (memory : Memory) (offset size : ℕ) :
    memory.readWord offset (size + 1) =
      memory.readWord offset size + 256 ^ size * (memory (offset + size)).toNat := by
  induction size generalizing offset with
  | zero => simp [readWord]
  | succ size ih =>
    have hplace : offset + 1 + size = offset + (size + 1) := by omega
    rw [readWord, ih (offset + 1), readWord, hplace, Nat.pow_succ', Nat.mul_add, Nat.add_assoc,
      Nat.mul_assoc]

/-- A byte of the number read. -/
theorem readWord_byte (memory : Memory) (offset : ℕ) {size k : ℕ} (hk : k < size) :
    memory.readWord offset size / 256 ^ k % 256 = (memory (offset + k)).toNat := by
  have hbyte := (memory offset).toNat_lt
  induction k generalizing offset size with
  | zero =>
    obtain ⟨size, rfl⟩ := Nat.exists_eq_succ_of_ne_zero (Nat.ne_of_gt hk)
    rw [pow_zero, Nat.div_one, readWord, Nat.add_mul_mod_self_left, Nat.mod_eq_of_lt hbyte]
    rfl
  | succ k ih =>
    obtain ⟨size, rfl⟩ := Nat.exists_eq_succ_of_ne_zero (Nat.ne_of_gt (Nat.zero_lt_of_lt hk))
    have hrest : memory.readWord offset (size + 1) / 256 = memory.readWord (offset + 1) size := by
      rw [readWord, Nat.add_mul_div_left _ _ (by decide), Nat.div_eq_of_lt hbyte, Nat.zero_add]
    rw [Nat.pow_succ', ← Nat.div_div_eq_div_mul, hrest,
      ih (offset + 1) (Nat.lt_of_succ_lt_succ hk) (memory (offset + 1)).toNat_lt, Nat.add_assoc,
      Nat.add_comm 1 k]

theorem writeWord_of_outside (memory : Memory) {offset size i : ℕ} (value : ℕ)
    (h : i < offset ∨ offset + size ≤ i) : memory.writeWord offset size value i = memory i :=
  if_neg (by omega)

/-- What is read from the bytes of a number. -/
theorem readWord_of_bytes {memory : Memory} {offset size value : ℕ}
    (h : ∀ i < size, memory (offset + i) = UInt8.ofNat (value / 256 ^ i)) :
    memory.readWord offset size = value % 256 ^ size := by
  induction size generalizing offset value with
  | zero => simp [readWord, Nat.mod_one]
  | succ size ih =>
    have hrest : ∀ i < size, memory (offset + 1 + i) = UInt8.ofNat (value / 256 / 256 ^ i) := by
      intro i hi
      rw [Nat.div_div_eq_div_mul, ← Nat.pow_succ', Nat.add_assoc, Nat.add_comm 1 i]
      exact h (i + 1) (by omega)
    have hfirst := h 0 (Nat.succ_pos size)
    rw [Nat.add_zero, pow_zero, Nat.div_one] at hfirst
    have hbyte : (UInt8.ofNat value).toNat = value % 256 := UInt8.toNat_ofNat'
    calc memory.readWord offset (size + 1)
        = value % 256 + 256 * (value / 256 % 256 ^ size) := by
          rw [readWord, ih hrest, hfirst, hbyte]
      _ = value % 256 ^ (size + 1) := by rw [Nat.pow_succ', Nat.mod_mul]

theorem readWord_writeWord (memory : Memory) (offset size value : ℕ) :
    (memory.writeWord offset size value).readWord offset size = value % 256 ^ size := by
  refine readWord_of_bytes fun i hi ↦ ?_
  unfold writeWord
  rw [if_pos (by omega), Nat.add_sub_cancel_left]

/-- A write elsewhere is not seen. -/
theorem readWord_writeWord_of_apart (memory : Memory) {offset size other : ℕ} (value : ℕ) {length : ℕ}
    (h : offset + size ≤ other ∨ other + length ≤ offset) :
    (memory.writeWord other length value).readWord offset size = memory.readWord offset size :=
  readWord_congr fun _ _ _ ↦ writeWord_of_outside _ _ (by omega)

/-- A loop that stores `n` bytes from an offset on. -/
theorem foldl_set_apply (f : ℕ → UInt8) (memory : Memory) (offset n i : ℕ) :
    (List.range n).foldl (fun memory k ↦ memory.set (offset + k) (f k)) memory i =
      if offset ≤ i ∧ i < offset + n then f (i - offset) else memory i := by
  induction n with
  | zero => exact (if_neg (by omega)).symm
  | succ n ih =>
    rw [List.range_succ, List.foldl_append, List.foldl_cons, List.foldl_nil]
    by_cases hi : i = offset + n
    · rw [hi, set_self, if_pos (by omega), Nat.add_sub_cancel_left]
    · rw [set_of_ne _ _ hi, ih]
      congr 1
      exact propext (by omega)

theorem readWord_set_of_ne (memory : Memory) {offset size other : ℕ} (byte : UInt8)
    (h : other < offset ∨ offset + size ≤ other) :
    (memory.set other byte).readWord offset size = memory.readWord offset size :=
  readWord_congr fun _ _ _ ↦ set_of_ne _ _ (by omega)

end Memory

end JordyOS.Machine
