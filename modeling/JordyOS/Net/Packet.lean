import JordyOS.Machine.Memory

/-!
# Packets

The fields of a decoded packet, the big-endian accessors every encoder and decoder of the kernel is
written with, and the round trips between them.
-/

namespace JordyOS.Net

open Machine

/-- The fields of a decoded IPv4 packet. -/
structure Packet where
  source : UInt32
  destination : UInt32
  sourcePort : UInt16
  destinationPort : UInt16
  length : UInt16
  protocol : UInt8
  deriving DecidableEq, Repr

def netIcmp : UInt8 := 1
def netTcp : UInt8 := 6
def netUdp : UInt8 := 17

/-! ## Byte order -/

def netRead16 (p : Memory) : UInt16 := (p 0).toUInt16 <<< 8 ||| (p 1).toUInt16

def netRead32 (p : Memory) : UInt32 :=
  (netRead16 p).toUInt32 <<< 16 ||| (netRead16 (p.shift 2)).toUInt32

def netWrite16 (p : Memory) (offset : ℕ) (n : UInt16) : Memory :=
  (p.set offset (n >>> 8).toUInt8).set (offset + 1) n.toUInt8

def netWrite32 (p : Memory) (offset : ℕ) (n : UInt32) : Memory :=
  netWrite16 (netWrite16 p offset (n >>> 16).toUInt16) (offset + 2) n.toUInt16

theorem toNat_netRead16 (p : Memory) : (netRead16 p).toNat = (p 0).toNat * 256 + (p 1).toNat := by
  have h0 := (p 0).toNat_lt
  have h1 := (p 1).toNat_lt
  have hshift : (p 0).toNat <<< 8 < 2 ^ 16 := by rw [Nat.shiftLeft_eq]; omega
  simp only [netRead16, UInt16.toNat_or, UInt16.toNat_shiftLeft, UInt8.toNat_toUInt16]
  rw [show (8 : UInt16).toNat % 16 = 8 from rfl, Nat.mod_eq_of_lt hshift,
    ← Nat.shiftLeft_add_eq_or_of_lt (by omega), Nat.shiftLeft_eq]

theorem toNat_netRead32 (p : Memory) :
    (netRead32 p).toNat = (netRead16 p).toNat * 65536 + (netRead16 (p.shift 2)).toNat := by
  have h0 := (netRead16 p).toNat_lt
  have h1 := (netRead16 (p.shift 2)).toNat_lt
  have hshift : (netRead16 p).toNat <<< 16 < 2 ^ 32 := by rw [Nat.shiftLeft_eq]; omega
  simp only [netRead32, UInt32.toNat_or, UInt32.toNat_shiftLeft, UInt16.toNat_toUInt32]
  rw [show (16 : UInt32).toNat % 32 = 16 from rfl, Nat.mod_eq_of_lt hshift,
    ← Nat.shiftLeft_add_eq_or_of_lt (by omega), Nat.shiftLeft_eq]

theorem netRead16_congr {p q : Memory} (h : ∀ i < 2, p i = q i) : netRead16 p = netRead16 q := by
  simp only [netRead16, h 0 (by omega), h 1 (by omega)]

theorem netRead32_congr {p q : Memory} (h : ∀ i < 4, p i = q i) : netRead32 p = netRead32 q := by
  have hlow : netRead16 (p.shift 2) = netRead16 (q.shift 2) :=
    netRead16_congr fun i hi ↦ h (2 + i) (by omega)
  simp only [netRead32, hlow, netRead16_congr fun i hi ↦ h i (by omega)]

theorem netWrite16_of_ne (p : Memory) {offset i : ℕ} (n : UInt16)
    (h : i < offset ∨ offset + 2 ≤ i) : netWrite16 p offset n i = p i := by
  rw [netWrite16, Memory.set_of_ne _ _ (by omega), Memory.set_of_ne _ _ (by omega)]

theorem netWrite32_of_ne (p : Memory) {offset i : ℕ} (n : UInt32)
    (h : i < offset ∨ offset + 4 ≤ i) : netWrite32 p offset n i = p i := by
  rw [netWrite32, netWrite16_of_ne _ _ (by omega), netWrite16_of_ne _ _ (by omega)]

theorem netRead16_netWrite16 (p : Memory) (offset : ℕ) (n : UInt16) :
    netRead16 ((netWrite16 p offset n).shift offset) = n := by
  apply UInt16.toNat_inj.mp
  have := n.toNat_lt
  have hhigh : netWrite16 p offset n offset = (n >>> 8).toUInt8 := by
    rw [netWrite16, Memory.set_of_ne _ _ (by omega), Memory.set_self]
  have hlow : netWrite16 p offset n (offset + 1) = n.toUInt8 := by
    rw [netWrite16, Memory.set_self]
  rw [toNat_netRead16, Memory.shift_apply, Memory.shift_apply, Nat.add_zero, hhigh, hlow]
  simp only [UInt16.toNat_toUInt8, UInt16.toNat_shiftRight, Nat.shiftRight_eq_div_pow]
  rw [show (8 : UInt16).toNat % 16 = 8 from rfl]
  omega

theorem netRead32_netWrite32 (p : Memory) (offset : ℕ) (n : UInt32) :
    netRead32 ((netWrite32 p offset n).shift offset) = n := by
  apply UInt32.toNat_inj.mp
  have := n.toNat_lt
  have hhigh : netRead16 ((netWrite32 p offset n).shift offset) = (n >>> 16).toUInt16 := by
    rw [← netRead16_netWrite16 p offset (n >>> 16).toUInt16]
    apply netRead16_congr
    intro i hi
    simp only [Memory.shift_apply, netWrite32]
    exact netWrite16_of_ne _ _ (by omega)
  rw [toNat_netRead32, hhigh, Memory.shift_shift, netWrite32, netRead16_netWrite16]
  simp only [UInt32.toNat_toUInt16, UInt32.toNat_shiftRight, Nat.shiftRight_eq_div_pow]
  rw [show (16 : UInt32).toNat % 32 = 16 from rfl]
  omega

end JordyOS.Net
