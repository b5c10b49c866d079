import JordyOS.Machine.Memory
import Mathlib.Data.List.GetD

/-!
# Buffers with a size

Accesses to a buffer whose size is known: an access outside the buffer has no result.  A program written
with these accesses and one written with plain pointers compute the same as long as no access fails.
-/

namespace JordyOS.Machine

variable {bytes : List UInt8} {i offset size capacity : ℕ}

theorem Memory.ofList_eq_getElem (hi : i < bytes.length) : Memory.ofList bytes i = bytes[i] :=
  List.getD_eq_getElem bytes 0 hi

theorem Memory.ofList_of_le (hi : bytes.length ≤ i) : Memory.ofList bytes i = 0 :=
  List.getD_eq_default _ _ hi

theorem Memory.ofList_append (first second : List UInt8) (i : ℕ) :
    Memory.ofList (first ++ second) i =
      if i < first.length then Memory.ofList first i else Memory.ofList second (i - first.length) := by
  unfold Memory.ofList
  by_cases hi : i < first.length
  · rw [if_pos hi, List.getD_append _ _ _ _ hi]
  · rw [if_neg hi, List.getD_append_right _ _ _ _ (Nat.le_of_not_lt hi)]

/-- Only the bytes that are copied count. -/
theorem Memory.copy_congr (target : Memory) {p q : Memory} (h : ∀ i < size, p i = q i) :
    target.copy offset p size = target.copy offset q size := by
  funext i
  unfold Memory.copy
  split
  · exact h _ (by omega)
  · rfl

/-- Read one byte. -/
def readByte (bytes : List UInt8) (i : ℕ) : Option UInt8 := bytes[i]?

/-- Read `size` bytes from `offset` on. -/
def readBytes (bytes : List UInt8) (offset : ℕ) : ℕ → Option (List UInt8)
  | 0 => some []
  | size + 1 => do
    let byte ← readByte bytes offset
    let rest ← readBytes bytes (offset + 1) size
    some (byte :: rest)

/-- `memcpy` into a buffer of `capacity` bytes. -/
def writeBytes (target : Memory) (capacity offset : ℕ) (source : List UInt8) : Option Memory :=
  if offset + source.length ≤ capacity then
    some (target.copy offset (Memory.ofList source) source.length)
  else none

theorem readByte_of_lt (hi : i < bytes.length) : readByte bytes i = some (Memory.ofList bytes i) := by
  rw [Memory.ofList_eq_getElem hi]
  exact List.getElem?_eq_getElem hi

theorem readBytes_of_le (h : offset + size ≤ bytes.length) :
    readBytes bytes offset size = some (((Memory.ofList bytes).shift offset).bytes size) := by
  induction size generalizing offset with
  | zero => rfl
  | succ size ih =>
    have hrest : ((Memory.ofList bytes).shift offset).bytes (size + 1) =
        Memory.ofList bytes offset :: ((Memory.ofList bytes).shift (offset + 1)).bytes size := by
      unfold Memory.bytes
      rw [List.range_succ_eq_map, List.map_cons, List.map_map]
      refine congrArg (List.cons _) (List.map_congr_left fun i _ ↦ ?_)
      rw [Function.comp_apply, Memory.shift_apply, Memory.shift_apply]
      congr 1
      omega
    rw [readBytes, readByte_of_lt (by omega), ih (by omega), hrest]
    rfl

/-- A copy that stays inside both buffers is the plain `memcpy`. -/
theorem writeBytes_of_le (target source : Memory) (h : offset + size ≤ capacity) :
    writeBytes target capacity offset (source.bytes size) = some (target.copy offset source size) := by
  unfold writeBytes
  rw [Memory.length_bytes, if_pos h]
  exact congrArg some (Memory.copy_congr target fun i hi ↦ Memory.ofList_bytes source hi)

end JordyOS.Machine
