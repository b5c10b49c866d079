import JordyOS.Bpf.Vm
import JordyOS.Machine.Ebpf
import Mathlib.Tactic.Ring

/-!
# Arithmetic of the interpreter

The values of `bpf_vm.c` against those of the instruction set: the division bit by bit, the
operations at both widths, the byte orders and the conditions of the jumps.
-/

namespace JordyOS.Bpf

open Machine Ebpf

/-! ## Division -/

/-- Quotient and remainder of the bits of `n` from bit `m` on. -/
structure Divided (n d m : ℕ) (qr : UInt64 × UInt64) : Prop where
  quotient : qr.1.toNat = n / 2 ^ m / d * 2 ^ m
  remainder : qr.2.toNat = n / 2 ^ m % d

theorem toNat_bit (n : UInt64) {m : ℕ} (hm : m < 64) :
    ((n >>> UInt64.ofNat m) &&& 1).toNat = n.toNat / 2 ^ m % 2 := by
  have hshift : (UInt64.ofNat m).toNat % 64 = m := by
    rw [UInt64.toNat_ofNat_of_lt' (hm.trans (by decide)), Nat.mod_eq_of_lt hm]
  have hone : (1 : UInt64).toNat = 1 := rfl
  rw [UInt64.toNat_and, UInt64.toNat_shiftRight, hshift, Nat.shiftRight_eq_div_pow, hone,
    Nat.and_one_is_mod]

/-- The remainder with the next bit behind it. -/
theorem toNat_shiftIn (r b : UInt64) (hb : b.toNat < 2) :
    ((r <<< 1) ||| b).toNat = (2 * r.toNat + b.toNat) % 2 ^ 64 := by
  have hone : (1 : UInt64).toNat % 64 = 1 := rfl
  have hr := r.toNat_lt
  have hshift : (r <<< 1).toNat = 2 ^ 1 * (r.toNat % 2 ^ 63) := by
    rw [UInt64.toNat_shiftLeft, hone, Nat.shiftLeft_eq]
    omega
  rw [UInt64.toNat_or, hshift, ← Nat.two_pow_add_eq_or_of_lt (by omega)]
  omega

theorem toNat_power {m : ℕ} (hm : m < 64) : ((1 : UInt64) <<< UInt64.ofNat m).toNat = 2 ^ m := by
  have hone : (1 : UInt64).toNat = 1 := rfl
  have hshift : (UInt64.ofNat m).toNat % 64 = m := by
    rw [UInt64.toNat_ofNat_of_lt' (hm.trans (by decide)), Nat.mod_eq_of_lt hm]
  rw [UInt64.toNat_shiftLeft, hshift, hone, Nat.shiftLeft_eq, Nat.one_mul]
  exact Nat.mod_eq_of_lt (Nat.pow_lt_pow_right (by decide) hm)

/-- The top bit, which the shift of the remainder pushes out. -/
theorem high_eq (r : UInt64) : (r >>> 63 != 0) = decide (2 ^ 64 ≤ 2 * r.toNat) := by
  have hshift : (63 : UInt64).toNat % 64 = 63 := rfl
  have hzero : (0 : UInt64).toNat = 0 := rfl
  have hvalue : (r >>> 63 = 0) ↔ ¬ 2 ^ 64 ≤ 2 * r.toNat := by
    rw [← UInt64.toNat_inj, UInt64.toNat_shiftRight, hshift, Nat.shiftRight_eq_div_pow, hzero]
    omega
  rw [Bool.eq_iff_iff, bne_iff_ne, decide_eq_true_eq, ne_eq, hvalue, not_not]

/-- A subtraction after a carry wraps back to the true remainder. -/
theorem divideRound_divided {n d : UInt64} {m : ℕ} {qr : UInt64 × UInt64} (hm : m < 64)
    (hd : 0 < d.toNat) (h : Divided n.toNat d.toNat (m + 1) qr) :
    Divided n.toNat d.toNat m (divideRound n d qr m) := by
  obtain ⟨q, r⟩ := qr
  have hquotient : q.toNat = n.toNat / 2 ^ (m + 1) / d.toNat * 2 ^ (m + 1) := h.quotient
  have hremainder : r.toNat = n.toNat / 2 ^ (m + 1) % d.toNat := h.remainder
  have hbit := toNat_bit n hm
  have hshifted := toNat_shiftIn r ((n >>> UInt64.ofNat m) &&& 1) (by omega)
  have hless := Nat.mod_lt (n.toNat / 2 ^ (m + 1)) hd
  have hsplit := Nat.div_add_mod (n.toNat / 2 ^ (m + 1)) d.toNat
  have hbelow := d.toNat_lt
  have htwo : n.toNat / 2 ^ m % 2 < 2 := Nat.mod_lt _ (by decide)
  rw [hbit] at hshifted
  have hscanned : n.toNat / 2 ^ m = 2 * (n.toNat / 2 ^ (m + 1)) + n.toNat / 2 ^ m % 2 := by
    rw [pow_succ, ← Nat.div_div_eq_div_mul]
    omega
  have htake : (r >>> 63 != 0 || decide ((r <<< 1) ||| ((n >>> UInt64.ofNat m) &&& 1) ≥ d)) =
      decide (d.toNat ≤ 2 * r.toNat + n.toNat / 2 ^ m % 2) := by
    rw [high_eq, ← Bool.decide_or, decide_eq_decide, ge_iff_le, UInt64.le_iff_toNat_le, hshifted]
    omega
  generalize n.toNat / 2 ^ (m + 1) / d.toNat = quotient at *
  generalize n.toNat / 2 ^ m % 2 = bit at *
  unfold divideRound
  dsimp only
  rw [htake]
  by_cases hle : d.toNat ≤ 2 * r.toNat + bit
  · have hvalue : 2 * r.toNat + bit - d.toNat + d.toNat * (2 * quotient + 1) = n.toNat / 2 ^ m ∧
        2 * r.toNat + bit - d.toNat < d.toNat := by
      have hproduct : d.toNat * (2 * quotient + 1) = 2 * (d.toNat * quotient) + d.toNat := by ring
      omega
    obtain ⟨hdiv, hmod⟩ := (Nat.div_mod_unique hd).mpr hvalue
    rw [decide_eq_true hle, if_pos rfl]
    constructor
    · rw [hdiv, UInt64.toNat_or, toNat_power hm, hquotient, Nat.mul_comm,
        ← Nat.two_pow_add_eq_or_of_lt (Nat.pow_lt_pow_right (by decide) (Nat.lt_add_one m))]
      ring
    · rw [hmod, UInt64.toNat_sub, hshifted]
      omega
  · have hvalue : 2 * r.toNat + bit + d.toNat * (2 * quotient) = n.toNat / 2 ^ m ∧
        2 * r.toNat + bit < d.toNat := by
      have hproduct : d.toNat * (2 * quotient) = 2 * (d.toNat * quotient) := by ring
      omega
    obtain ⟨hdiv, hmod⟩ := (Nat.div_mod_unique hd).mpr hvalue
    rw [decide_eq_false hle, if_neg Bool.false_ne_true]
    constructor
    · rw [hdiv, hquotient]
      ring
    · rw [hmod, hshifted]
      omega

theorem foldl_divideRound {n d : UInt64} (hd : 0 < d.toNat) {m : ℕ} (hm : m ≤ 64)
    {qr : UInt64 × UInt64} (h : Divided n.toNat d.toNat m qr) :
    Divided n.toNat d.toNat 0 ((List.range m).reverse.foldl (divideRound n d) qr) := by
  induction m generalizing qr with
  | zero => exact h
  | succ m ih =>
    rw [List.range_succ, List.reverse_append, List.reverse_singleton, List.singleton_append,
      List.foldl_cons]
    exact ih (by omega) (divideRound_divided (by omega) hd h)

theorem toNat_divide (n d : UInt64) :
    (divide n d false).toNat = n.toNat / d.toNat ∧ (divide n d true).toNat = n.toNat % d.toNat := by
  unfold divide
  by_cases hd : d = 0
  · rw [if_pos hd, if_pos hd, hd]
    exact ⟨(Nat.div_zero _).symm, (Nat.mod_zero _).symm⟩
  · have hpos : 0 < d.toNat := Nat.pos_of_ne_zero fun hzero ↦ hd (UInt64.toNat_inj.mp hzero)
    have hstart : Divided n.toNat d.toNat 64 (0, 0) := by
      have hnothing : n.toNat / 2 ^ 64 = 0 := Nat.div_eq_of_lt n.toNat_lt
      constructor
      · rw [hnothing, Nat.zero_div, Nat.zero_mul]
        rfl
      · rw [hnothing, Nat.zero_mod]
        rfl
    obtain ⟨hquotient, hremainder⟩ := foldl_divideRound hpos (le_refl 64) hstart
    rw [pow_zero, Nat.div_one, Nat.mul_one] at hquotient
    rw [pow_zero, Nat.div_one] at hremainder
    rw [if_neg hd, if_neg hd]
    exact ⟨hquotient, hremainder⟩

/-- The division is that of the numbers, and a zero divisor leaves nothing as quotient and all as remainder. -/
theorem divide_exact (n d : UInt64) :
    (divide n d false).toNat = (if d = 0 then 0 else n.toNat / d.toNat) ∧
      (divide n d true).toNat = if d = 0 then n.toNat else n.toNat % d.toNat := by
  obtain ⟨hquotient, hremainder⟩ := toNat_divide n d
  by_cases hd : d = 0
  · have hzero : d.toNat = 0 := congrArg UInt64.toNat hd
    rw [hzero, Nat.div_zero] at hquotient
    rw [hzero, Nat.mod_zero] at hremainder
    rw [if_pos hd, if_pos hd]
    exact ⟨hquotient, hremainder⟩
  · rw [if_neg hd, if_neg hd]
    exact ⟨hquotient, hremainder⟩

/-! ## Operations -/

/-- The upper half of the opcode of an operation. -/
def opcode : Operation → UInt8
  | .add => 0x00
  | .sub => 0x10
  | .mul => 0x20
  | .div => 0x30
  | .or => 0x40
  | .and => 0x50
  | .lsh => 0x60
  | .rsh => 0x70
  | .neg => 0x80
  | .mod => 0x90
  | .xor => 0xa0
  | .mov => 0xb0
  | .arsh => 0xc0

theorem toNat_and_wide (b : UInt64) : (b &&& 63).toNat = b.toNat % 64 :=
  (UInt64.toNat_and b 63).trans (Nat.and_two_pow_sub_one_eq_mod b.toNat 6)

theorem toNat_and_narrow (b : UInt32) : (b &&& 31).toNat = b.toNat % 32 :=
  (UInt32.toNat_and b 31).trans (Nat.and_two_pow_sub_one_eq_mod b.toNat 5)

/-- A masked shift is not negative. -/
theorem toNat_smod_wide (b : UInt64) :
    ((b &&& 63).toInt64.toBitVec.smod 64).toNat = b.toNat % 64 := by
  have hmsb : (b.toBitVec &&& 63#64).msb = false := by
    rw [BitVec.msb_and]
    exact Bool.and_false _
  change ((b.toBitVec &&& 63#64).smod 64#64).toNat = _
  rw [BitVec.smod_eq, hmsb]
  change ((b &&& 63).toBitVec % 64#64).toNat = _
  rw [BitVec.toNat_umod]
  change (b &&& 63).toNat % 64 = _
  rw [toNat_and_wide, Nat.mod_mod]

theorem toNat_smod_narrow (b : UInt32) :
    ((b &&& 31).toInt32.toBitVec.smod 32).toNat = b.toNat % 32 := by
  have hmsb : (b.toBitVec &&& 31#32).msb = false := by
    rw [BitVec.msb_and]
    exact Bool.and_false _
  change ((b.toBitVec &&& 31#32).smod 32#32).toNat = _
  rw [BitVec.smod_eq, hmsb]
  change ((b &&& 31).toBitVec % 32#32).toNat = _
  rw [BitVec.toNat_umod]
  change (b &&& 31).toNat % 32 = _
  rw [toNat_and_narrow, Nat.mod_mod]

theorem toNat_div_apply {w : ℕ} (a b : BitVec w) :
    (Operation.div.apply a b).toNat = a.toNat / b.toNat := by
  have hle := Nat.div_le_self a.toNat b.toNat
  have hnothing : (0 : BitVec w).toNat = 0 := by simp
  unfold Operation.apply
  dsimp only
  split
  · rename_i hzero
    rw [hzero, hnothing, Nat.div_zero]
  · rw [BitVec.toNat_ofNat, Nat.mod_eq_of_lt (Nat.lt_of_le_of_lt hle a.isLt)]

theorem toNat_mod_apply {w : ℕ} (a b : BitVec w) :
    (Operation.mod.apply a b).toNat = a.toNat % b.toNat := by
  have hle := Nat.mod_le a.toNat b.toNat
  have hnothing : (0 : BitVec w).toNat = 0 := by simp
  unfold Operation.apply
  dsimp only
  split
  · rename_i hzero
    rw [hzero, hnothing, Nat.mod_zero]
  · rw [BitVec.toNat_ofNat, Nat.mod_eq_of_lt (Nat.lt_of_le_of_lt hle a.isLt)]

theorem aluValue_wide (o : Operation) (a b : UInt64) :
    (aluValue (opcode o) true a b).map UInt64.toBitVec = some (o.apply a.toBitVec b.toBitVec) := by
  have hshift : (b &&& 63).toNat % 64 = b.toNat % 64 := by
    rw [toNat_and_wide, Nat.mod_mod]
  cases o with
  | add | sub | mul | or | and | xor | mov => rfl
  | div =>
    refine congrArg some (BitVec.eq_of_toNat_eq ?_)
    exact (toNat_divide a b).1.trans (toNat_div_apply a.toBitVec b.toBitVec).symm
  | mod =>
    refine congrArg some (BitVec.eq_of_toNat_eq ?_)
    exact (toNat_divide a b).2.trans (toNat_mod_apply a.toBitVec b.toBitVec).symm
  | neg => exact congrArg some (BitVec.zero_sub a.toBitVec)
  | lsh =>
    refine congrArg some ?_
    change a.toBitVec <<< ((b &&& 63).toNat % 64) = a.toBitVec <<< (b.toNat % 64)
    rw [hshift]
  | rsh =>
    refine congrArg some ?_
    change a.toBitVec >>> ((b &&& 63).toNat % 64) = a.toBitVec >>> (b.toNat % 64)
    rw [hshift]
  | arsh =>
    refine congrArg some ?_
    change a.toBitVec.sshiftRight ((b &&& 63).toInt64.toBitVec.smod 64).toNat = _
    rw [toNat_smod_wide]
    rfl

/-- At the narrow width only the low half of the 64-bit result counts. -/
theorem aluValue_narrow (o : Operation) (x y : UInt32) :
    (aluValue (opcode o) false x.toUInt64 y.toUInt64).map (fun v ↦ v.toUInt32.toBitVec) =
      some (o.apply x.toBitVec y.toBitVec) := by
  have hquotient := toNat_divide x.toUInt64 y.toUInt64
  rw [UInt32.toNat_toUInt64, UInt32.toNat_toUInt64] at hquotient
  have hshift : (y.toNat &&& 31) % 64 = y.toNat % 32 := by
    have hmask : y.toNat &&& 31 = y.toNat % 32 := Nat.and_two_pow_sub_one_eq_mod y.toNat 5
    omega
  cases o with
  | add | sub | mul =>
    refine congrArg some (congrArg UInt32.toBitVec ?_)
    simp
  | or | and | xor | mov | neg => simp [aluValue, opcode, Operation.apply]
  | div =>
    refine congrArg some (BitVec.eq_of_toNat_eq ?_)
    change (divide x.toUInt64 y.toUInt64 false).toUInt32.toNat = _
    have hle := Nat.div_le_self x.toNat y.toNat
    rw [toNat_div_apply, UInt64.toNat_toUInt32, hquotient.1]
    exact Nat.mod_eq_of_lt (Nat.lt_of_le_of_lt hle x.toNat_lt)
  | mod =>
    refine congrArg some (BitVec.eq_of_toNat_eq ?_)
    change (divide x.toUInt64 y.toUInt64 true).toUInt32.toNat = _
    have hle := Nat.mod_le x.toNat y.toNat
    rw [toNat_mod_apply, UInt64.toNat_toUInt32, hquotient.2]
    exact Nat.mod_eq_of_lt (Nat.lt_of_le_of_lt hle x.toNat_lt)
  | lsh => simp [aluValue, opcode, Operation.apply, hshift]
  | rsh =>
    have hle := Nat.shiftRight_le x.toNat (y.toNat % 32)
    have hlt := x.toNat_lt
    refine congrArg some (BitVec.eq_of_toNat_eq ?_)
    simp [Operation.apply, hshift]
    omega
  | arsh =>
    have hsmod := toNat_smod_narrow y
    simp [aluValue, opcode, Operation.apply] at hsmod ⊢
    rw [hsmod]

/-! ## Byte order -/

/-- What the rounds of a reversal have built, and what is left of the word. -/
structure Reversed (a : UInt64) (k : ℕ) (p : UInt64 × UInt64) : Prop where
  built : p.1.toNat = Nat.ofDigits 256 ((List.range k).map (byteOf a.toBitVec)).reverse
  below : p.1.toNat < 256 ^ k
  left : p.2.toNat = a.toNat / 256 ^ k

theorem reversed_round {a : UInt64} {k : ℕ} {p : UInt64 × UInt64} (hk : k < 8) (h : Reversed a k p) :
    Reversed a (k + 1) ((p.1 <<< 8) ||| (p.2 &&& 255), p.2 >>> 8) := by
  have hbelow : p.1.toNat < 256 ^ 7 :=
    Nat.lt_of_lt_of_le h.below (Nat.pow_le_pow_right (by decide) (by omega))
  have hbyte : (p.2 &&& 255).toNat = byteOf a.toBitVec k := by
    have hmask : (p.2 &&& 255).toNat = p.2.toNat % 256 :=
      (UInt64.toNat_and p.2 255).trans (Nat.and_two_pow_sub_one_eq_mod p.2.toNat 8)
    rw [hmask, h.left]
    rfl
  have hlt : byteOf a.toBitVec k < 2 ^ 8 := Nat.mod_lt _ (by decide)
  have height : (8 : UInt64).toNat % 64 = 8 := rfl
  have hshift : (p.1 <<< 8).toNat = 2 ^ 8 * p.1.toNat := by
    rw [UInt64.toNat_shiftLeft, height, Nat.shiftLeft_eq, Nat.mul_comm, Nat.mod_eq_of_lt (by omega)]
  have hvalue : ((p.1 <<< 8) ||| (p.2 &&& 255)).toNat = 256 * p.1.toNat + byteOf a.toBitVec k := by
    rw [UInt64.toNat_or, hshift, hbyte, ← Nat.two_pow_add_eq_or_of_lt hlt]
  constructor
  · rw [hvalue, List.range_succ, List.map_append, List.reverse_append, List.map_singleton,
      List.reverse_singleton, List.singleton_append, Nat.ofDigits_cons, h.built, Nat.add_comm]
  · have hpower : 256 ^ (k + 1) = 256 * 256 ^ k := by ring
    have hstart := h.below
    rw [hvalue, hpower]
    omega
  · rw [UInt64.toNat_shiftRight, height, Nat.shiftRight_eq_div_pow, h.left, Nat.div_div_eq_div_mul]
    rfl

theorem foldl_reversed (a : UInt64) {count : ℕ} (hcount : count ≤ 8) :
    Reversed a count ((List.range count).foldl
      (fun p _ ↦ ((p.1 <<< 8) ||| (p.2 &&& 255), p.2 >>> 8)) (0, a)) := by
  induction count with
  | zero => exact ⟨rfl, Nat.one_pos, (Nat.div_one _).symm⟩
  | succ count ih =>
    rw [List.range_succ, List.foldl_append, List.foldl_cons, List.foldl_nil]
    exact reversed_round (by omega) (ih (by omega))

/-- The low bits of the operand. -/
theorem toNat_cut (a : UInt64) {bits : ℕ} (hbits : bits = 16 ∨ bits = 32 ∨ bits = 64) :
    (if bits < 64 then a &&& ((1 <<< UInt64.ofNat bits) - 1) else a).toNat = a.toNat % 2 ^ bits := by
  rcases hbits with rfl | rfl | rfl
  · exact (UInt64.toNat_and a 65535).trans (Nat.and_two_pow_sub_one_eq_mod a.toNat 16)
  · exact (UInt64.toNat_and a 4294967295).trans (Nat.and_two_pow_sub_one_eq_mod a.toNat 32)
  · exact (Nat.mod_eq_of_lt a.toNat_lt).symm

theorem swapBytes_little (a : UInt64) {bits : ℕ} (hbits : bits = 16 ∨ bits = 32 ∨ bits = 64) :
    (swapBytes a bits false).toBitVec = (a.toBitVec.setWidth bits).setWidth 64 := by
  apply BitVec.eq_of_toNat_eq
  have hlt := a.toNat_lt
  have hle := Nat.mod_le a.toNat (2 ^ bits)
  change (if bits < 64 then a &&& ((1 <<< UInt64.ofNat bits) - 1) else a).toNat = _
  rw [toNat_cut a hbits, BitVec.toNat_setWidth, BitVec.toNat_setWidth]
  exact (Nat.mod_eq_of_lt (Nat.lt_of_le_of_lt hle hlt)).symm

theorem swapBytes_big (a : UInt64) {bits : ℕ} (hbits : bits = 16 ∨ bits = 32 ∨ bits = 64) :
    (swapBytes a bits true).toBitVec = reverseBytes (bits / 8) a.toBitVec := by
  obtain ⟨low, hlow⟩ : ∃ low : UInt64,
    low = if bits < 64 then a &&& ((1 <<< UInt64.ofNat bits) - 1) else a := ⟨_, rfl⟩
  have hcut : low.toNat = a.toNat % 2 ^ bits := hlow ▸ toNat_cut a hbits
  have hcount : bits / 8 ≤ 8 := by omega
  have hreversed := (foldl_reversed low hcount).built
  have hbytes : (List.range (bits / 8)).map (byteOf low.toBitVec) =
      (List.range (bits / 8)).map (byteOf a.toBitVec) := by
    refine List.map_congr_left fun k hk ↦ ?_
    have hk' := List.mem_range.mp hk
    have hpower : 256 ^ k * 256 = 2 ^ (8 * (k + 1)) := by
      rw [pow_mul, pow_succ]
      rfl
    have hdvd : 256 ^ k * 256 ∣ 2 ^ bits := by
      rw [hpower]
      exact Nat.pow_dvd_pow 2 (by omega)
    change low.toNat / 256 ^ k % 256 = a.toNat / 256 ^ k % 256
    rw [← Nat.mod_mul_right_div_self, ← Nat.mod_mul_right_div_self, hcut, Nat.mod_mod_of_dvd _ hdvd]
  have hswap : swapBytes a bits true = ((List.range (bits / 8)).foldl
      (fun (p : UInt64 × UInt64) _ ↦ ((p.1 <<< 8) ||| (p.2 &&& 255), p.2 >>> 8)) (0, low)).1 := by
    rw [hlow]
    rfl
  apply BitVec.eq_of_toNat_eq
  rw [reverseBytes, ← hbytes, ← hreversed, BitVec.toNat_ofNat, ← hswap]
  exact (Nat.mod_eq_of_lt (swapBytes a bits true).toNat_lt).symm

/-! ## Conditions -/

/-- The upper half of the opcode of a jump. -/
def jumpOpcode : Condition → UInt8
  | .always => 0x00
  | .eq => 0x10
  | .gt => 0x20
  | .ge => 0x30
  | .set => 0x40
  | .ne => 0x50
  | .sgt => 0x60
  | .sge => 0x70
  | .lt => 0xa0
  | .le => 0xb0
  | .slt => 0xc0
  | .sle => 0xd0

/-- The comparisons depend on the values of the operands alone. -/
theorem taken_eq {w : ℕ} (c : Condition) {a b : UInt64} {p q : BitVec w} (ha : a.toNat = p.toNat)
    (hb : b.toNat = q.toNat) : taken (jumpOpcode c) a b p.toInt q.toInt = some (c.holds p q) := by
  cases c with
  | always => rfl
  | eq | ne | set =>
    refine congrArg some (Bool.eq_iff_iff.mpr ?_)
    simp [Condition.holds, ← UInt64.toNat_inj, ← BitVec.toNat_inj, ha, hb]
  | gt | ge | lt | le =>
    refine congrArg some (decide_eq_decide.mpr ?_)
    simp [UInt64.lt_iff_toNat_lt, UInt64.le_iff_toNat_le, ha, hb]
  | sgt | sge | slt | sle => rfl

end JordyOS.Bpf
