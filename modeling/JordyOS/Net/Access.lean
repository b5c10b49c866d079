import JordyOS.Machine.Buffer
import JordyOS.Net.Checksum

/-!
# Checked accesses

The accessors of packets on a buffer whose size is known: a read outside the buffer has no result.  The
sums of the checksum are checked in the same way, an addition that overflows has no result.
-/

namespace JordyOS.Net

open Machine

variable {bytes : List UInt8} {i n offset : ℕ} {sum : UInt32}

/-! ## Words -/

def readWord16 (bytes : List UInt8) (i : ℕ) : Option UInt16 :=
  (readBytes bytes i 2).map fun word ↦ netRead16 (Memory.ofList word)

def readWord32 (bytes : List UInt8) (i : ℕ) : Option UInt32 :=
  (readBytes bytes i 4).map fun word ↦ netRead32 (Memory.ofList word)

theorem readWord16_of_lt (h : i + 1 < bytes.length) :
    readWord16 bytes i = some (netRead16 ((Memory.ofList bytes).shift i)) := by
  unfold readWord16
  rw [readBytes_of_le (by omega)]
  exact congrArg some (netRead16_congr fun j hj ↦ Memory.ofList_bytes _ hj)

theorem readWord32_of_lt (h : i + 3 < bytes.length) :
    readWord32 bytes i = some (netRead32 ((Memory.ofList bytes).shift i)) := by
  unfold readWord32
  rw [readBytes_of_le (by omega)]
  exact congrArg some (netRead32_congr fun j hj ↦ Memory.ofList_bytes _ hj)

/-! ## Sums -/

/-- An addition that does not overflow. -/
def addExact (a b : UInt32) : Option UInt32 :=
  if a.toNat + b.toNat < 2 ^ 32 then some (a + b) else none

/-- The words of `length` bytes from `offset` on, added to `sum`. -/
def checkedSum (bytes : List UInt8) : (offset length : ℕ) → (sum : UInt32) → Option UInt32
  | _, 0, sum => some sum
  | offset, 1, sum => do
    let byte ← readByte bytes offset
    addExact sum (byte.toUInt32 <<< 8)
  | offset, length + 2, sum => do
    let word ← readWord16 bytes offset
    let sum ← addExact sum word.toUInt32
    checkedSum bytes (offset + 2) length sum

/-- The rounds of the carry loop; a loop that does not end has no result. -/
def checkedCarry : (rounds : ℕ) → (sum : UInt32) → Option UInt32
  | 0, sum => if sum >>> 16 = 0 then some sum else none
  | rounds + 1, sum =>
    if sum >>> 16 = 0 then some sum else do
      let sum ← addExact (sum &&& (65535 : UInt32)) (sum >>> 16)
      checkedCarry rounds sum

/-- `net_checksum` on the bytes from `offset` on. -/
def checkedChecksum (bytes : List UInt8) (offset length : ℕ) (sum : UInt32) : Option UInt16 := do
  let sum ← checkedSum bytes offset length sum
  let sum ← checkedCarry 2 sum
  some (~~~ sum.toUInt16)

theorem addExact_of_lt {a b : UInt32} (h : a.toNat + b.toNat < 2 ^ 32) : addExact a b = some (a + b) :=
  if_pos h

/-- The sum stays inside the bytes and inside 32 bits. -/
theorem checkedSum_eq (hin : offset + n ≤ bytes.length)
    (hsum : sum.toNat + byteSum ((Memory.ofList bytes).shift offset) n < 2 ^ 32) :
    checkedSum bytes offset n sum = some (sumWords ((Memory.ofList bytes).shift offset) n sum) := by
  induction n using Nat.strong_induction_on generalizing offset sum with
  | _ n ih =>
    match n, ih with
    | 0, _ => rfl
    | 1, _ =>
      rw [byteSum_one, Memory.shift_apply, Nat.add_zero] at hsum
      rw [checkedSum, readByte_of_lt (by omega)]
      change addExact sum _ = _
      rw [addExact_of_lt (by rwa [toNat_oddByte])]
      rfl
    | n + 2, ih =>
      rw [byteSum_add_two, Memory.shift_shift] at hsum
      have hword : (netRead16 ((Memory.ofList bytes).shift offset)).toUInt32.toNat =
          (netRead16 ((Memory.ofList bytes).shift offset)).toNat := UInt16.toNat_toUInt32 _
      have hadd : (sum + (netRead16 ((Memory.ofList bytes).shift offset)).toUInt32).toNat =
          sum.toNat + (netRead16 ((Memory.ofList bytes).shift offset)).toNat := by
        rw [UInt32.toNat_add, hword, Nat.mod_eq_of_lt (by omega)]
      rw [checkedSum, readWord16_of_lt (by omega)]
      change (addExact sum _ >>= _) = _
      rw [addExact_of_lt (by omega)]
      change checkedSum bytes (offset + 2) n _ = _
      rw [ih n (by omega) (by omega) (by omega), sumWords, Memory.shift_shift]

/-- Two rounds are enough, and none of them overflows. -/
theorem checkedCarry_eq (sum : UInt32) : checkedCarry 2 sum = some (carry sum) := by
  have hround : ∀ s : UInt32,
      addExact (s &&& (65535 : UInt32)) (s >>> 16) = some ((s &&& (65535 : UInt32)) + (s >>> 16)) := by
    intro s
    have hword := s.toNat_lt
    have hlow : (s &&& (65535 : UInt32)).toNat ≤ 65535 := by
      rw [UInt32.toNat_and]
      exact Nat.and_le_right
    have hhigh : (s >>> 16).toNat = s.toNat / 65536 := by
      rw [UInt32.toNat_shiftRight, show (16 : UInt32).toNat % 32 = 16 from rfl, Nat.shiftRight_eq_div_pow]
    exact addExact_of_lt (by omega)
  have hend : carry sum >>> 16 = 0 := (shiftRight_eq_zero_iff _).mpr (carry_le sum)
  unfold carry carryLoop at hend ⊢
  unfold checkedCarry
  split
  · rfl
  · rename_i hfirst
    rw [if_neg hfirst] at hend
    rw [hround]
    change checkedCarry 1 _ = _
    unfold carryLoop at hend ⊢
    unfold checkedCarry
    split
    · rfl
    · rename_i hsecond
      rw [if_neg hsecond] at hend
      rw [hround]
      exact if_pos hend

/-- On a buffer of at most 1500 bytes, with at most six words added before, the checksum reads inside the
buffer, and no sum overflows. -/
theorem checkedChecksum_eq (hin : offset + n ≤ bytes.length) (hn : n ≤ 1500) (hsum : sum.toNat ≤ 6 * 65535) :
    checkedChecksum bytes offset n sum = some (netChecksum ((Memory.ofList bytes).shift offset) n sum) := by
  have hbytes := byteSum_le ((Memory.ofList bytes).shift offset) n
  unfold checkedChecksum
  rw [checkedSum_eq hin (by omega)]
  change (checkedCarry 2 _ >>= _) = _
  rw [checkedCarry_eq]
  rfl

end JordyOS.Net
