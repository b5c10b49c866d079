import JordyOS.Net.Access

/-!
# What the checksum detects

Two buffers whose checksums are both zero have sums that agree modulo the largest word.  A change of one
word, of one byte or of one bit changes the sum by less than that, so it is seen, unless it exchanges the
two representations of zero.
-/

namespace JordyOS.Net

open Machine

variable {p q : Memory} {n offset i b : ℕ} {sum : UInt32}

/-! ## Sums with the same checksum -/

theorem byteSum_modEq_of_zero (hp : netChecksum p n sum = 0) (hq : netChecksum q n sum = 0)
    (hsum : sum.toNat + n * 65280 < 2 ^ 32) : byteSum p n ≡ byteSum q n [MOD 65535] := by
  have hdvd : ∀ r, netChecksum r n sum = 0 → 65535 ∣ sum.toNat + byteSum r n := by
    intro r hr
    have hbound : sum.toNat + byteSum r n < 2 ^ 32 :=
      (Nat.add_le_add_left (byteSum_le r n) _).trans_lt hsum
    exact ((endAround_eq_iff (by decide)).mp ((netChecksum_eq_zero_iff hbound).mp hr)).2
  have hboth : sum.toNat + byteSum p n ≡ sum.toNat + byteSum q n [MOD 65535] :=
    (Nat.modEq_zero_iff_dvd.mpr (hdvd p hp)).trans (Nat.modEq_zero_iff_dvd.mpr (hdvd q hq)).symm
  exact Nat.ModEq.add_left_cancel' _ hboth

/-! ## One word -/

/-- Words that are congruent are equal, or the two representations of zero. -/
theorem word_eq_of_modEq {v w : UInt16} (h : v.toNat ≡ w.toNat [MOD 65535]) :
    v = w ∨ (v = 0 ∧ w = 0xffff) ∨ (v = 0xffff ∧ w = 0) := by
  have hv := v.toNat_lt
  have hw := w.toNat_lt
  have hones : (0xffff : UInt16).toNat = 65535 := rfl
  have hmod : v.toNat % 65535 = w.toNat % 65535 := h
  simp only [← UInt16.toNat_inj, UInt16.toNat_zero, hones]
  omega

/-- A buffer whose checksum is zero does not keep it when one word is replaced by another number. -/
theorem netChecksum_replace_ne (hp : netChecksum p n sum = 0) (hsum : sum.toNat + n * 65280 < 2 ^ 32)
    (heven : offset % 2 = 0) (hin : offset + 2 ≤ n) {word : UInt16}
    (hword : word ≠ netRead16 (p.shift offset))
    (hzero : ¬ (word = 0 ∧ netRead16 (p.shift offset) = 0xffff))
    (hones : ¬ (word = 0xffff ∧ netRead16 (p.shift offset) = 0)) :
    netChecksum (netWrite16 p offset word) n sum ≠ 0 := by
  intro hchanged
  have hmod : byteSum (netWrite16 p offset word) n ≡ byteSum p n [MOD 65535] :=
    byteSum_modEq_of_zero hchanged hp hsum
  have hreplace := byteSum_replace p heven hin word
  have hwords : word.toNat ≡ (netRead16 (p.shift offset)).toNat [MOD 65535] := by
    have hsides : byteSum (netWrite16 p offset word) n + (netRead16 (p.shift offset)).toNat ≡
        byteSum p n + word.toNat [MOD 65535] := by rw [hreplace]
    exact (Nat.ModEq.add_left_cancel hmod hsides).symm
  rcases word_eq_of_modEq hwords with heq | h | h
  · exact hword heq
  · exact hzero h
  · exact hones h

/-! ## One byte -/

/-- A buffer whose checksum is zero does not keep it when one byte is replaced by another one. -/
theorem netChecksum_set_ne (hp : netChecksum p n sum = 0) (hsum : sum.toNat + n * 65280 < 2 ^ 32)
    (hi : i < n) {byte : UInt8} (hbyte : byte ≠ p i) : netChecksum (p.set i byte) n sum ≠ 0 := by
  intro hchanged
  have hmod : byteSum (p.set i byte) n ≡ byteSum p n [MOD 65535] :=
    byteSum_modEq_of_zero hchanged hp hsum
  have hset := byteSum_set p hi byte
  have hbytes : (p i).toNat * weight i ≡ byte.toNat * weight i [MOD 65535] := by
    have hsides : byteSum (p.set i byte) n + (p i).toNat * weight i ≡
        byteSum p n + byte.toNat * weight i [MOD 65535] := by rw [hset]
    exact Nat.ModEq.add_left_cancel hmod hsides
  have hold := (p i).toNat_lt
  have hnew := byte.toNat_lt
  have hne : byte.toNat ≠ (p i).toNat := fun h ↦ hbyte (UInt8.toNat_inj.mp h)
  have hremainders : (p i).toNat * weight i % 65535 = byte.toNat * weight i % 65535 := hbytes
  unfold weight at hremainders
  split at hremainders <;> omega

/-! ## The law -/

/-- What is stored checks, and no sum overflows on the way.  Then one word can only be exchanged for the
other zero, and a last odd byte not at all. -/
theorem netChecksum_law (hn : n ≤ 1500) (hsum : sum.toNat ≤ 6 * 65535) (heven : offset % 2 = 0)
    (hin : offset + 2 ≤ n) (p : Memory) :
    let stored := netWrite16 p offset (netChecksum (netWrite16 p offset 0) n sum)
    netChecksum stored n sum = 0 ∧
    (∀ q : Memory, checkedChecksum (q.bytes n) 0 n sum = some (netChecksum q n sum)) ∧
    (∀ place word, place % 2 = 0 → place + 2 ≤ n → word ≠ netRead16 (stored.shift place) →
      ¬ (word = 0 ∧ netRead16 (stored.shift place) = 0xffff) →
      ¬ (word = 0xffff ∧ netRead16 (stored.shift place) = 0) →
      netChecksum (netWrite16 stored place word) n sum ≠ 0) ∧
    ∀ byte, n % 2 = 1 → byte ≠ stored (n - 1) → netChecksum (stored.set (n - 1) byte) n sum ≠ 0 := by
  intro stored
  have hbound : sum.toNat + n * 65280 < 2 ^ 32 := by omega
  have hstored : netChecksum stored n sum = 0 := netChecksum_stored p heven hin hbound
  refine ⟨hstored, fun q ↦ ?_, ?_, ?_⟩
  · have hlength : (q.bytes n).length = n := q.length_bytes n
    rw [checkedChecksum_eq (by omega) hn hsum, Memory.shift_zero]
    exact congrArg some (netChecksum_congr (fun i hi ↦ Memory.ofList_bytes q hi) sum)
  · intro place word hplace hinside hword hzero hones
    exact netChecksum_replace_ne hstored hbound hplace hinside hword hzero hones
  · intro byte _ hbyte
    exact netChecksum_set_ne hstored hbound (by omega) hbyte

/-- Three bytes, of which the last one stands alone. -/
theorem netChecksum_law_odd :
    let stored := netWrite16 (Memory.ofList [1, 2, 3]) 0
      (netChecksum (netWrite16 (Memory.ofList [1, 2, 3]) 0 0) 3 5)
    netChecksum stored 3 5 = 0 ∧
    (∀ q : Memory, checkedChecksum (q.bytes 3) 0 3 5 = some (netChecksum q 3 5)) ∧
    (∀ place word, place % 2 = 0 → place + 2 ≤ 3 → word ≠ netRead16 (stored.shift place) →
      ¬ (word = 0 ∧ netRead16 (stored.shift place) = 0xffff) →
      ¬ (word = 0xffff ∧ netRead16 (stored.shift place) = 0) →
      netChecksum (netWrite16 stored place word) 3 5 ≠ 0) ∧
    ∀ byte, 3 % 2 = 1 → byte ≠ stored (3 - 1) → netChecksum (stored.set (3 - 1) byte) 3 5 ≠ 0 :=
  netChecksum_law (by decide) (by decide) (by decide) (by decide) (Memory.ofList [1, 2, 3])

end JordyOS.Net
