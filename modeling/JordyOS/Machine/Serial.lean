import Mathlib.Data.UInt
import Mathlib.Tactic.Common
import Mathlib.Tactic.NormNum

/-!
# Serial numbers

Sequence numbers are 32-bit words compared by the sign of their difference.  All arithmetic is
reduced to natural numbers by measuring every word from one base word: as long as the distances
involved stay below `2 ^ 31`, comparison of words is comparison of distances.
-/

namespace JordyOS.Machine

/-- The distance from `base` up to `word`, counted with wrap-around. -/
def distance (base word : UInt32) : ℕ := (word - base).toNat

theorem distance_lt (base word : UInt32) : distance base word < 2 ^ 32 :=
  (word - base).toNat_lt

@[simp]
theorem distance_self (base : UInt32) : distance base base = 0 := by
  simp [distance]

theorem distance_inj {base first second : UInt32} :
    distance base first = distance base second ↔ first = second := by
  constructor
  · intro h
    have hword : first - base = second - base := UInt32.toNat_inj.mp h
    rw [← UInt32.sub_add_cancel first base, hword, UInt32.sub_add_cancel]
  · rintro rfl
    rfl

theorem distance_add (base word step : UInt32) :
    distance base (word + step) = (distance base word + step.toNat) % 2 ^ 32 := by
  simp only [distance, UInt32.toNat_sub, UInt32.toNat_add]
  have := base.toNat_lt
  omega

theorem distance_add_of_lt {base word step : UInt32}
    (h : distance base word + step.toNat < 2 ^ 32) :
    distance base (word + step) = distance base word + step.toNat := by
  rw [distance_add, Nat.mod_eq_of_lt h]

theorem distance_add_ofNat {base word : UInt32} {i : ℕ} (h : distance base word + i < 2 ^ 32) :
    distance base (word + UInt32.ofNat i) = distance base word + i := by
  have hi : (UInt32.ofNat i).toNat = i := by
    rw [UInt32.toNat_ofNat', Nat.mod_eq_of_lt (by omega)]
  rw [distance_add_of_lt (by omega), hi]

@[simp]
theorem distance_add_left (base step : UInt32) : distance base (base + step) = step.toNat := by
  rw [distance_add_of_lt] <;> simp [step.toNat_lt]

theorem distance_sub (base word step : UInt32) :
    distance base (word - step) = (2 ^ 32 + distance base word - step.toNat) % 2 ^ 32 := by
  simp only [distance, UInt32.toNat_sub]
  have := base.toNat_lt
  have := step.toNat_lt
  have := word.toNat_lt
  omega

/-- The difference of two words, computed from their distances. -/
theorem toNat_sub_eq (base first second : UInt32) :
    (first - second).toNat =
      (2 ^ 32 + distance base first - distance base second) % 2 ^ 32 := by
  simp only [distance, UInt32.toNat_sub]
  have := base.toNat_lt
  have := first.toNat_lt
  have := second.toNat_lt
  omega

theorem toNat_sub_of_le {base first second : UInt32}
    (h : distance base second ≤ distance base first) :
    (first - second).toNat = distance base first - distance base second := by
  have := distance_lt base first
  have := distance_lt base second
  rw [toNat_sub_eq base]
  omega

/-- The words in an interval, measured from another base. -/
theorem distance_lt_iff {base word other : UInt32} {size : ℕ} (h : distance base word + size ≤ 2 ^ 32) :
    distance word other < size ↔
      distance base word ≤ distance base other ∧ distance base other < distance base word + size := by
  have hother := distance_lt base other
  have hplace : distance word other =
      (2 ^ 32 + distance base other - distance base word) % 2 ^ 32 := toNat_sub_eq base other word
  omega

/-- A position counted from the word after `base`. -/
theorem toNat_position {base word : UInt32} {offset i : ℕ} (h : distance base word = 1 + offset)
    (hi : 1 + offset + i < 2 ^ 32) : (word + UInt32.ofNat i - (base + 1)).toNat = offset + i := by
  have hword : distance base (word + UInt32.ofNat i) = 1 + offset + i := by
    rw [distance_add_ofNat (by omega), h]
  have hone : distance base (base + 1) = 1 := distance_add_left base 1
  have hle : distance base (base + 1) ≤ distance base (word + UInt32.ofNat i) := by omega
  rw [toNat_sub_of_le hle, hword, hone]
  omega

/-- A sum of words is the sum of their values, counted with wrap-around. -/
theorem toNat_sum_map {Index : Type*} (f : Index → UInt32) (l : List Index) :
    (l.map f).sum.toNat = (l.map fun i ↦ (f i).toNat).sum % 2 ^ 32 := by
  induction l with
  | nil => rfl
  | cons i l ih =>
    simp only [List.map_cons, List.sum_cons, UInt32.toNat_add, ih]
    omega

/-- The signed difference is negative exactly in the upper half of the words. -/
theorem toInt32_neg_iff (word : UInt32) : word.toInt32 < 0 ↔ 2 ^ 31 ≤ word.toNat := by
  have hint : word.toInt32.toInt = word.toBitVec.toInt := rfl
  have hnat : word.toNat = word.toBitVec.toNat := rfl
  have := word.toBitVec.isLt
  rw [Int32.lt_iff_toInt_lt, hint, hnat, BitVec.toInt_eq_toNat_cond]
  simp only [Int32.toInt_zero]
  split <;> omega

end JordyOS.Machine
