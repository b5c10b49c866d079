import JordyOS.Machine.EndAround
import JordyOS.Net.Packet
import Mathlib.Algebra.BigOperators.Intervals
import Mathlib.Algebra.Group.Action.Defs
import Mathlib.Algebra.Order.BigOperators.Group.Finset

/-!
# The internet checksum

`net_checksum` adds the big-endian words of a buffer with an end-around carry and complements the sum.
A checksum stored in a field of the buffer makes the checksum of the whole buffer zero.
-/

namespace JordyOS.Net

open Machine

/-! ## The code -/

/-- The words of `length` bytes, added to `sum`; a last odd byte is the high half of a word. -/
def sumWords (p : Memory) : (length : ℕ) → (sum : UInt32) → UInt32
  | 0, sum => sum
  | 1, sum => sum + (p 0).toUInt32 <<< 8
  | length + 2, sum => sumWords (p.shift 2) length (sum + (netRead16 p).toUInt32)

/-- The rounds of the loop that adds the carries. -/
def carryLoop : (rounds : ℕ) → (sum : UInt32) → UInt32
  | 0, sum => sum
  | rounds + 1, sum =>
    if sum >>> 16 = 0 then sum else carryLoop rounds ((sum &&& (65535 : UInt32)) + (sum >>> 16))

/-- After two rounds no carry is left. -/
def carry (sum : UInt32) : UInt32 := carryLoop 2 sum

def netChecksum (p : Memory) (length : ℕ) (sum : UInt32) : UInt16 :=
  ~~~ (carry (sumWords p length sum)).toUInt16

/-! ## The sum of the words -/

/-- What a byte at offset `i` counts in the sum. -/
def weight (i : ℕ) : ℕ := if i % 2 = 0 then 256 else 1

def byteSum (p : Memory) (n : ℕ) : ℕ := ∑ i ∈ Finset.range n, (p i).toNat * weight i

variable {p : Memory} {n : ℕ}

theorem weight_le (i : ℕ) : weight i ≤ 256 := by
  unfold weight
  split <;> omega

theorem weight_add_two (i : ℕ) : weight (i + 2) = weight i := by
  unfold weight
  rw [Nat.add_mod_right]

theorem byteSum_add_two (p : Memory) (n : ℕ) :
    byteSum p (n + 2) = (netRead16 p).toNat + byteSum (p.shift 2) n := by
  have htail : ∀ i, (p (i + 1 + 1)).toNat * weight (i + 1 + 1) =
      (p.shift 2 i).toNat * weight i := by
    intro i
    rw [weight_add_two, Memory.shift_apply, Nat.add_comm 2 i]
  unfold byteSum
  rw [Finset.sum_range_succ', Finset.sum_range_succ', toNat_netRead16]
  simp only [htail]
  change _ + (p 1).toNat * 1 + (p 0).toNat * 256 = _
  omega

theorem byteSum_le (p : Memory) (n : ℕ) : byteSum p n ≤ n * 65280 := by
  have hterm : ∀ i ∈ Finset.range n, (p i).toNat * weight i ≤ 65280 := by
    intro i _
    have hbyte := (p i).toNat_lt
    calc
      (p i).toNat * weight i ≤ 255 * 256 := Nat.mul_le_mul (by omega) (weight_le i)
      _ = 65280 := rfl
  have hsum := Finset.sum_le_card_nsmul _ _ _ hterm
  rwa [Finset.card_range, smul_eq_mul] at hsum

theorem sumWords_congr {q : Memory} (h : ∀ i < n, p i = q i) (sum : UInt32) :
    sumWords p n sum = sumWords q n sum := by
  induction p, n, sum using sumWords.induct generalizing q with
  | case1 p sum => rfl
  | case2 p sum => rw [sumWords, sumWords, h 0 (by omega)]
  | case3 p n sum ih =>
    have hfirst : netRead16 p = netRead16 q := netRead16_congr fun i hi ↦ h i (by omega)
    have hrest : ∀ i < n, p.shift 2 i = q.shift 2 i := fun i hi ↦ h (2 + i) (by omega)
    rw [sumWords, sumWords, ih hrest, hfirst]

/-- The checksum depends on the bytes of the buffer only. -/
theorem netChecksum_congr {q : Memory} (h : ∀ i < n, p i = q i) (sum : UInt32) :
    netChecksum p n sum = netChecksum q n sum := by
  unfold netChecksum
  rw [sumWords_congr h]

theorem byteSum_one (p : Memory) : byteSum p 1 = (p 0).toNat * 256 := by
  simp [byteSum, weight]

/-- A last odd byte is the high half of a word. -/
theorem toNat_oddByte (byte : UInt8) : (byte.toUInt32 <<< 8).toNat = byte.toNat * 256 := by
  have hbyte := byte.toNat_lt
  rw [UInt32.toNat_shiftLeft, UInt8.toNat_toUInt32, show (8 : UInt32).toNat % 32 = 8 from rfl,
    Nat.shiftLeft_eq, Nat.mod_eq_of_lt (by omega)]

theorem toNat_sumWords (p : Memory) (n : ℕ) (sum : UInt32) (h : sum.toNat + byteSum p n < 2 ^ 32) :
    (sumWords p n sum).toNat = sum.toNat + byteSum p n := by
  induction p, n, sum using sumWords.induct with
  | case1 p sum => rfl
  | case2 p sum =>
    rw [byteSum_one] at h ⊢
    rw [sumWords, UInt32.toNat_add, toNat_oddByte, Nat.mod_eq_of_lt h]
  | case3 p n sum ih =>
    rw [byteSum_add_two] at h ⊢
    have hadd : (sum + (netRead16 p).toUInt32).toNat = sum.toNat + (netRead16 p).toNat := by
      rw [UInt32.toNat_add, UInt16.toNat_toUInt32, Nat.mod_eq_of_lt (by omega)]
    rw [sumWords, ih (by omega), hadd]
    omega

/-! ## The carry -/

theorem toNat_carryRound (sum : UInt32) :
    ((sum &&& (65535 : UInt32)) + (sum >>> 16)).toNat = sum.toNat % 65536 + sum.toNat / 65536 := by
  have hword := sum.toNat_lt
  have hlow : (sum &&& (65535 : UInt32)).toNat = sum.toNat % 65536 := by
    rw [UInt32.toNat_and]
    exact Nat.and_two_pow_sub_one_eq_mod sum.toNat 16
  have hhigh : (sum >>> 16).toNat = sum.toNat / 65536 := by
    rw [UInt32.toNat_shiftRight, show (16 : UInt32).toNat % 32 = 16 from rfl, Nat.shiftRight_eq_div_pow]
  rw [UInt32.toNat_add, hlow, hhigh, Nat.mod_eq_of_lt (by omega)]

theorem shiftRight_eq_zero_iff (sum : UInt32) : sum >>> 16 = 0 ↔ sum.toNat ≤ 65535 := by
  rw [← UInt32.toNat_inj, UInt32.toNat_shiftRight, show (16 : UInt32).toNat % 32 = 16 from rfl,
    Nat.shiftRight_eq_div_pow, UInt32.toNat_zero]
  omega

theorem toNat_carryLoop (rounds : ℕ) (sum : UInt32) :
    endAround 65535 (carryLoop rounds sum).toNat = endAround 65535 sum.toNat := by
  induction rounds generalizing sum with
  | zero => rfl
  | succ rounds ih =>
    unfold carryLoop
    split
    · rfl
    · rw [ih, toNat_carryRound]
      exact endAround_carry

/-- The loop has ended after two rounds. -/
theorem carry_le (sum : UInt32) : (carry sum).toNat ≤ 65535 := by
  have hword := sum.toNat_lt
  unfold carry carryLoop
  split
  · rename_i h
    exact (shiftRight_eq_zero_iff sum).mp h
  · rename_i hcarry
    rw [shiftRight_eq_zero_iff] at hcarry
    unfold carryLoop
    have hround := toNat_carryRound sum
    split
    · rename_i h
      exact (shiftRight_eq_zero_iff _).mp h
    · rename_i hagain
      rw [shiftRight_eq_zero_iff] at hagain
      unfold carryLoop
      rw [toNat_carryRound]
      omega

theorem toNat_carry (sum : UInt32) : (carry sum).toNat = endAround 65535 sum.toNat := by
  rw [← toNat_carryLoop 2 sum, ← carry, endAround_of_le (carry_le sum)]

/-! ## The checksum -/

theorem toNat_netChecksum {sum : UInt32} (h : sum.toNat + byteSum p n < 2 ^ 32) :
    (netChecksum p n sum).toNat = 65535 - endAround 65535 (sum.toNat + byteSum p n) := by
  have hcarry := carry_le (sumWords p n sum)
  rw [netChecksum, UInt16.toNat_not, UInt32.toNat_toUInt16, toNat_carry, toNat_sumWords p n sum h]
  rw [toNat_carry, toNat_sumWords p n sum h] at hcarry
  rw [Nat.mod_eq_of_lt (by omega)]
  rfl

/-- The checksum is zero exactly when the sum is a positive multiple of the largest word. -/
theorem netChecksum_eq_zero_iff {sum : UInt32} (h : sum.toNat + byteSum p n < 2 ^ 32) :
    netChecksum p n sum = 0 ↔ endAround 65535 (sum.toNat + byteSum p n) = 65535 := by
  have hle : endAround 65535 (sum.toNat + byteSum p n) ≤ 65535 := endAround_le (by decide)
  rw [← UInt16.toNat_inj, toNat_netChecksum h, UInt16.toNat_zero]
  omega

theorem byteSum_set (p : Memory) {i : ℕ} (hi : i < n) (byte : UInt8) :
    byteSum (p.set i byte) n + (p i).toNat * weight i = byteSum p n + byte.toNat * weight i := by
  have hmem : i ∈ Finset.range n := Finset.mem_range.mpr hi
  have hrest : ∑ j ∈ (Finset.range n).erase i, (p.set i byte j).toNat * weight j =
      ∑ j ∈ (Finset.range n).erase i, (p j).toNat * weight j :=
    Finset.sum_congr rfl fun j hj ↦ by rw [Memory.set_of_ne _ _ (Finset.ne_of_mem_erase hj)]
  unfold byteSum
  rw [← Finset.add_sum_erase _ _ hmem, ← Finset.add_sum_erase _ (fun j ↦ (p j).toNat * weight j) hmem,
    hrest, Memory.set_self]
  omega

/-- A word replaced at an even offset. -/
theorem byteSum_replace (p : Memory) {offset : ℕ} (heven : offset % 2 = 0) (hin : offset + 2 ≤ n)
    (word : UInt16) : byteSum (netWrite16 p offset word) n + (netRead16 (p.shift offset)).toNat =
      byteSum p n + word.toNat := by
  have hweight : weight offset = 256 := if_pos heven
  have hweight' : weight (offset + 1) = 1 := if_neg (by omega)
  have hother : ∀ byte, p.set offset byte (offset + 1) = p (offset + 1) := fun byte ↦
    Memory.set_of_ne _ _ (by omega)
  have hfirst := byteSum_set p (by omega : offset < n) (word >>> 8).toUInt8
  have hsecond := byteSum_set (p.set offset (word >>> 8).toUInt8) (by omega : offset + 1 < n) word.toUInt8
  have hword := word.toNat_lt
  have hhigh : (word >>> 8).toUInt8.toNat = word.toNat / 256 := by
    rw [UInt16.toNat_toUInt8, UInt16.toNat_shiftRight, show (8 : UInt16).toNat % 16 = 8 from rfl,
      Nat.shiftRight_eq_div_pow]
    omega
  rw [hweight, hhigh] at hfirst
  rw [hweight', hother, UInt16.toNat_toUInt8] at hsecond
  rw [toNat_netRead16, Memory.shift_apply, Memory.shift_apply, Nat.add_zero]
  unfold netWrite16
  omega

/-- A word written over a zero at an even offset is added to the sum. -/
theorem byteSum_netWrite16 (p : Memory) {offset : ℕ} (heven : offset % 2 = 0) (hin : offset + 2 ≤ n)
    (word : UInt16) :
    byteSum (netWrite16 p offset word) n = byteSum (netWrite16 p offset 0) n + word.toNat := by
  have hzero := byteSum_replace p heven hin 0
  have hword := byteSum_replace p heven hin word
  rw [UInt16.toNat_zero] at hzero
  omega

/-- A stored checksum makes the checksum of the whole zero. -/
theorem netChecksum_stored (p : Memory) {offset : ℕ} (heven : offset % 2 = 0) (hin : offset + 2 ≤ n)
    {sum : UInt32} (hsum : sum.toNat + n * 65280 < 2 ^ 32) :
    netChecksum (netWrite16 p offset (netChecksum (netWrite16 p offset 0) n sum)) n sum = 0 := by
  have hbound : ∀ q : Memory, sum.toNat + byteSum q n < 2 ^ 32 := fun q ↦
    (Nat.add_le_add_left (byteSum_le q n) _).trans_lt hsum
  rw [netChecksum_eq_zero_iff (hbound _), byteSum_netWrite16 p heven hin, toNat_netChecksum (hbound _),
    ← Nat.add_assoc]
  exact endAround_complement (by decide)

end JordyOS.Net
