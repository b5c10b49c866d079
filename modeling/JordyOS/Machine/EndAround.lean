import Mathlib.Data.Nat.ModEq
import Mathlib.Tactic.Common

/-!
# Sums with an end-around carry

Adding words and feeding the carries back in at the low end computes modulo the largest word `b`.  The
result is a word again: zero stands for the empty sum only, and every other multiple of `b` is
represented by `b` itself.
-/

namespace JordyOS.Machine

/-- The representative of `s` modulo `b` between 1 and `b`; only zero is represented by zero. -/
def endAround (b s : ℕ) : ℕ := if s = 0 then 0 else (s - 1) % b + 1

variable {b s : ℕ}

@[simp]
theorem endAround_zero : endAround b 0 = 0 := rfl

theorem endAround_eq_zero_iff : endAround b s = 0 ↔ s = 0 := by
  unfold endAround
  split <;> simp_all

theorem endAround_le (hb : 0 < b) : endAround b s ≤ b := by
  unfold endAround
  split
  · exact Nat.zero_le b
  · exact Nat.mod_lt _ hb

theorem endAround_of_le (h : s ≤ b) : endAround b s = s := by
  unfold endAround
  split
  · rename_i hzero
    exact hzero.symm
  · rw [Nat.mod_eq_of_lt (by omega)]
    omega

theorem endAround_modEq : endAround b s ≡ s [MOD b] := by
  unfold endAround
  split
  · rename_i hzero
    rw [hzero]
  · rename_i hpos
    have hmod : (s - 1) % b ≡ s - 1 [MOD b] := Nat.mod_modEq _ _
    have hadd := hmod.add_right 1
    rwa [Nat.sub_add_cancel (Nat.pos_of_ne_zero hpos)] at hadd

/-- The representative is `b` exactly for the positive multiples of `b`. -/
theorem endAround_eq_iff (hb : 0 < b) : endAround b s = b ↔ 0 < s ∧ b ∣ s := by
  constructor
  · intro h
    refine ⟨Nat.pos_of_ne_zero fun hzero ↦ ?_, ?_⟩
    · rw [hzero, endAround_zero] at h
      omega
    · have hmod : endAround b s ≡ s [MOD b] := endAround_modEq
      rw [h] at hmod
      exact (Nat.modEq_zero_iff_dvd.mp (hmod.symm.trans (Nat.modEq_zero_iff_dvd.mpr dvd_rfl)))
  · rintro ⟨hpos, hdvd⟩
    have hmod : endAround b s ≡ 0 [MOD b] :=
      endAround_modEq.trans (Nat.modEq_zero_iff_dvd.mpr hdvd)
    have hle : endAround b s ≤ b := endAround_le hb
    have hne : endAround b s ≠ 0 := fun hzero ↦ hpos.ne' (endAround_eq_zero_iff.mp hzero)
    exact Nat.le_antisymm hle (Nat.le_of_dvd (Nat.pos_of_ne_zero hne) (Nat.modEq_zero_iff_dvd.mp hmod))

/-- Adding the carry to the low word keeps the representative. -/
theorem endAround_carry : endAround b (s % (b + 1) + s / (b + 1)) = endAround b s := by
  have hdiv : s % (b + 1) + (b + 1) * (s / (b + 1)) = s := Nat.mod_add_div s (b + 1)
  rw [Nat.add_one_mul] at hdiv
  generalize s % (b + 1) = low, s / (b + 1) = high at hdiv ⊢
  subst hdiv
  unfold endAround
  by_cases hzero : low + high = 0
  · have hlow : low = 0 := by omega
    have hhigh : high = 0 := by omega
    rw [hlow, hhigh, Nat.mul_zero]
  · rw [if_neg hzero, if_neg (by omega),
      show low + (b * high + high) - 1 = low + high - 1 + b * high by omega,
      Nat.add_mul_mod_self_left]

/-- A sum completed by the complement of its representative is represented by `b`. -/
theorem endAround_complement (hb : 0 < b) : endAround b (s + (b - endAround b s)) = b := by
  have hle : endAround b s ≤ b := endAround_le hb
  rw [endAround_eq_iff hb]
  constructor
  · by_contra hzero
    have hs : s = 0 := by omega
    rw [hs, endAround_zero] at hzero
    omega
  · have hmod : s + (b - endAround b s) ≡ endAround b s + (b - endAround b s) [MOD b] :=
      endAround_modEq.symm.add_right _
    rw [Nat.add_sub_cancel' hle] at hmod
    exact Nat.modEq_zero_iff_dvd.mp (hmod.trans (Nat.modEq_zero_iff_dvd.mpr dvd_rfl))

end JordyOS.Machine
