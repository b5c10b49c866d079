import JordyOS.Net.Packet
import Mathlib.Data.Nat.Bitwise

/-!
# Address prefixes

A prefix is a mask in the native table and a number of leading bits in the policy map.  The bits are
those of the address in network byte order, counted from the front.
-/

namespace JordyOS.Net

open Machine

/-- Bit `b` of an address in memory, the first bit of the first byte being bit 0. -/
def addressBit (address : Memory) (b : ℕ) : Bool :=
  address (b / 8) &&& (0x80 >>> UInt8.ofNat (b % 8)) != 0

/-- The first `n` bits of two addresses agree. -/
def SameBits (x y : Memory) (n : ℕ) : Prop := ∀ b < n, addressBit x b = addressBit y b

/-- The mask of the first `n` bits. -/
def prefixMask (n : ℕ) : UInt32 := UInt32.ofNat (2 ^ 32 - 2 ^ (32 - n))

theorem and_highBit (byte : UInt8) {j : ℕ} (hj : j < 8) :
    (byte &&& (0x80 >>> UInt8.ofNat j) != 0) = byte.toNat.testBit (7 - j) := by
  have hall : ∀ (n : Fin 256) (j : Fin 8),
      (UInt8.ofFin n &&& (0x80 >>> UInt8.ofNat j) != 0) = n.val.testBit (7 - j) := by decide +kernel
  exact hall byte.toFin ⟨j, hj⟩

/-- The bytes of an address, first byte first. -/
theorem toNat_netWrite32 (n : UInt32) {k : ℕ} (hk : k < 4) :
    (netWrite32 Memory.zero 0 n k).toNat = n.toNat / 2 ^ (24 - 8 * k) % 2 ^ 8 := by
  have hsixteen : (16 : UInt32).toNat % 32 = 16 := rfl
  have height : (8 : UInt16).toNat % 16 = 8 := rfl
  have hlt := n.toNat_lt
  have hcases : k = 0 ∨ k = 1 ∨ k = 2 ∨ k = 3 := by omega
  rcases hcases with rfl | rfl | rfl | rfl
  · change ((n >>> 16).toUInt16 >>> 8).toUInt8.toNat = _
    simp only [UInt16.toNat_toUInt8, UInt16.toNat_shiftRight, UInt32.toNat_toUInt16,
      UInt32.toNat_shiftRight, Nat.shiftRight_eq_div_pow, hsixteen, height]
    omega
  · change (n >>> 16).toUInt16.toUInt8.toNat = _
    simp only [UInt16.toNat_toUInt8, UInt32.toNat_toUInt16, UInt32.toNat_shiftRight,
      Nat.shiftRight_eq_div_pow, hsixteen]
    omega
  · change (n.toUInt16 >>> 8).toUInt8.toNat = _
    simp only [UInt16.toNat_toUInt8, UInt16.toNat_shiftRight, UInt32.toNat_toUInt16,
      Nat.shiftRight_eq_div_pow, height]
    omega
  · change n.toUInt16.toUInt8.toNat = _
    simp only [UInt16.toNat_toUInt8, UInt32.toNat_toUInt16]
    omega

theorem addressBit_netWrite32 (n : UInt32) {b : ℕ} (hb : b < 32) :
    addressBit (netWrite32 Memory.zero 0 n) b = n.toNat.testBit (31 - b) := by
  rw [addressBit, and_highBit _ (Nat.mod_lt b (by decide)), toNat_netWrite32 n (by omega),
    Nat.testBit_mod_two_pow, Nat.testBit_div_two_pow, decide_eq_true (by omega), Bool.true_and]
  congr 1
  omega

theorem testBit_prefixMask {n i : ℕ} (hn : n ≤ 32) :
    (prefixMask n).toNat.testBit i = decide (32 - n ≤ i ∧ i < 32) := by
  have hle : 2 ^ (32 - n) ≤ 2 ^ 32 := Nat.pow_le_pow_right (by decide) (by omega)
  have hpos : 0 < 2 ^ (32 - n) := Nat.two_pow_pos _
  have hvalue : (prefixMask n).toNat = 2 ^ (32 - n) * (2 ^ n - 1) := by
    rw [prefixMask, UInt32.toNat_ofNat', Nat.mod_eq_of_lt (by omega), Nat.mul_sub, ← Nat.pow_add,
      Nat.sub_add_cancel hn, Nat.mul_one]
  rw [hvalue, Nat.testBit_two_pow_mul, Nat.testBit_two_pow_sub_one, ← Bool.decide_and]
  exact decide_eq_decide.mpr (by omega)

/-- The first `n` bits agree exactly when the masked addresses do. -/
theorem and_prefixMask_eq_iff (x y : UInt32) {n : ℕ} (hn : n ≤ 32) :
    x &&& prefixMask n = y &&& prefixMask n ↔
      SameBits (netWrite32 Memory.zero 0 x) (netWrite32 Memory.zero 0 y) n := by
  rw [← UInt32.toNat_inj, UInt32.toNat_and, UInt32.toNat_and]
  constructor
  · intro h b hb
    have hbit := congrArg (fun m ↦ m.testBit (31 - b)) h
    simp only [Nat.testBit_and, testBit_prefixMask hn] at hbit
    rw [decide_eq_true (by omega), Bool.and_true, Bool.and_true] at hbit
    rw [addressBit_netWrite32 x (by omega), addressBit_netWrite32 y (by omega)]
    exact hbit
  · intro h
    apply Nat.eq_of_testBit_eq
    intro i
    simp only [Nat.testBit_and, testBit_prefixMask hn]
    by_cases hi : 32 - n ≤ i ∧ i < 32
    · have hbit := h (31 - i) (by omega)
      rw [addressBit_netWrite32 x (by omega), addressBit_netWrite32 y (by omega)] at hbit
      have hplace : 31 - (31 - i) = i := by omega
      rw [hplace] at hbit
      rw [hbit]
    · rw [decide_eq_false hi, Bool.and_false, Bool.and_false]

end JordyOS.Net
