import Mathlib.Logic.Function.Basic
import Mathlib.Tactic.Common

/-!
# Byte memory

The bytes behind a pointer, as a function of the offset.  A pointer carries no length: that a
program stays inside a buffer is a theorem about the offsets it uses, not part of the type.
-/

namespace JordyOS.Machine

/-- The byte found at each offset from a pointer. -/
abbrev Memory := ℕ → UInt8

namespace Memory

/-- Memory cleared by `memset(_, 0, _)`. -/
def zero : Memory := fun _ ↦ 0

/-- The pointer `offset` bytes further on. -/
def shift (memory : Memory) (offset : ℕ) : Memory := fun i ↦ memory (offset + i)

/-- Store one byte. -/
def set (memory : Memory) (offset : ℕ) (byte : UInt8) : Memory :=
  fun i ↦ if i = offset then byte else memory i

/-- `memcpy(target + offset, source, size)` between buffers that do not overlap. -/
def copy (target : Memory) (offset : ℕ) (source : Memory) (size : ℕ) : Memory :=
  fun i ↦ if offset ≤ i ∧ i < offset + size then source (i - offset) else target i

/-- The memory that is seen as `view` through a pointer to `offset`. -/
def viewed (memory : Memory) (offset : ℕ) (view : Memory) : Memory :=
  fun i ↦ if i < offset then memory i else view (i - offset)

/-- The first `size` bytes. -/
def bytes (memory : Memory) (size : ℕ) : List UInt8 := (List.range size).map memory

/-- A buffer with the given contents and zeros behind them. -/
def ofList (bytes : List UInt8) : Memory := fun i ↦ bytes.getD i 0

@[simp]
theorem zero_apply (i : ℕ) : zero i = 0 := rfl

@[simp]
theorem shift_apply (memory : Memory) (offset i : ℕ) :
    memory.shift offset i = memory (offset + i) := rfl

@[simp]
theorem shift_zero (memory : Memory) : memory.shift 0 = memory := by
  funext i
  simp

theorem shift_shift (memory : Memory) (first second : ℕ) :
    (memory.shift first).shift second = memory.shift (first + second) := by
  funext i
  simp [Nat.add_assoc]

@[simp]
theorem set_self (memory : Memory) (offset : ℕ) (byte : UInt8) :
    memory.set offset byte offset = byte := if_pos rfl

theorem set_of_ne (memory : Memory) {offset i : ℕ} (byte : UInt8) (h : i ≠ offset) :
    memory.set offset byte i = memory i := if_neg h

theorem copy_inside (target source : Memory) {offset size i : ℕ} (h : i < size) :
    target.copy offset source size (offset + i) = source i := by
  simp [copy, h]

theorem copy_below (target source : Memory) {offset size i : ℕ} (h : i < offset) :
    target.copy offset source size i = target i := by
  simp only [copy, ite_eq_right_iff, and_imp]
  omega

theorem copy_above (target source : Memory) {offset size i : ℕ} (h : offset + size ≤ i) :
    target.copy offset source size i = target i := by
  simp only [copy, ite_eq_right_iff, and_imp]
  omega

theorem viewed_below (memory view : Memory) {offset i : ℕ} (h : i < offset) :
    memory.viewed offset view i = memory i := if_pos h

@[simp]
theorem shift_viewed (memory view : Memory) (offset : ℕ) :
    (memory.viewed offset view).shift offset = view := by
  funext i
  rw [shift_apply, viewed, if_neg (by omega), Nat.add_sub_cancel_left]

@[simp]
theorem length_bytes (memory : Memory) (size : ℕ) : (memory.bytes size).length = size := by
  simp [bytes]

theorem bytes_eq_bytes_iff {p q : Memory} {n m : ℕ} :
    p.bytes n = q.bytes m ↔ n = m ∧ ∀ i < n, p i = q i := by
  constructor
  · intro h
    have hlength : n = m := by simpa using congrArg List.length h
    subst hlength
    exact ⟨rfl, fun i hi ↦ List.map_inj_left.mp h i (List.mem_range.mpr hi)⟩
  · rintro ⟨rfl, h⟩
    exact List.map_inj_left.mpr fun i hi ↦ h i (List.mem_range.mp hi)

theorem ofList_bytes (memory : Memory) {size i : ℕ} (hi : i < size) :
    ofList (memory.bytes size) i = memory i := by
  simp [ofList, bytes, hi]

end Memory

end JordyOS.Machine
