import Mathlib.Algebra.Group.Nat.Defs
import Mathlib.Data.List.Basic
import Mathlib.Data.Nat.Notation
import Mathlib.Tactic.Common

/-!
# Decimal numbers

The value of a string of decimal digits, and the digits of a number without leading zeros; the text of a
number is read back as that number.
-/

namespace JordyOS.Machine

/-- The bytes of a text. -/
def bytesOf (text : String) : List UInt8 := text.toList.map Char.toUInt8

/-- A byte from `0` to `9`. -/
def IsDigit (c : UInt8) : Prop := 48 ≤ c.toNat ∧ c.toNat ≤ 57

instance (c : UInt8) : Decidable (IsDigit c) := inferInstanceAs (Decidable (_ ∧ _))

/-- The value of the digits behind those of `n`. -/
def decimalFrom (n : ℕ) (digits : List UInt8) : ℕ :=
  digits.foldl (fun n c ↦ n * 10 + (c.toNat - 48)) n

/-- The value of a string of digits. -/
def decimalValue (digits : List UInt8) : ℕ := decimalFrom 0 digits

variable {digits : List UInt8} {c : UInt8} {n m : ℕ}

theorem IsDigit.ne_zero (h : IsDigit c) : c ≠ 0 := by
  rintro rfl
  exact absurd h.1 (by decide)

theorem IsDigit.toNat_sub (h : IsDigit c) : (c - 48).toUInt32.toNat = c.toNat - 48 := by
  rw [UInt8.toNat_toUInt32, UInt8.toNat_sub_of_le]
  · rfl
  · exact h.1

@[simp]
theorem decimalFrom_nil (n : ℕ) : decimalFrom n [] = n := rfl

@[simp]
theorem decimalFrom_cons (n : ℕ) (c : UInt8) (digits : List UInt8) :
    decimalFrom n (c :: digits) = decimalFrom (n * 10 + (c.toNat - 48)) digits := by
  unfold decimalFrom
  rw [List.foldl_cons]

theorem decimalFrom_append (n : ℕ) (digits more : List UInt8) :
    decimalFrom n (digits ++ more) = decimalFrom (decimalFrom n digits) more :=
  List.foldl_append

/-- Further digits do not make the value smaller. -/
theorem le_decimalFrom (n : ℕ) (digits : List UInt8) : n ≤ decimalFrom n digits := by
  induction digits generalizing n with
  | nil => exact Nat.le_refl n
  | cons c digits ih =>
    calc n ≤ n * 10 + (c.toNat - 48) := by omega
      _ ≤ decimalFrom (n * 10 + (c.toNat - 48)) digits := ih _
      _ = decimalFrom n (c :: digits) := (decimalFrom_cons n c digits).symm

/-! ## The text of a number -/

/-- The digits of a number, without leading zeros. -/
def decimalText (n : ℕ) : List UInt8 := bytesOf (toString n)

/-- The last digit of a number. -/
def lastDigit (n : ℕ) : UInt8 := UInt8.ofNat (48 + n % 10)

theorem toUInt8_digitChar (h : n < 10) : n.digitChar.toUInt8 = lastDigit n := by
  have hall : ∀ n < 10, n.digitChar.toUInt8 = lastDigit n := by decide
  exact hall n h

theorem decimalText_of_lt (h : n < 10) : decimalText n = [lastDigit n] := by
  rw [decimalText, Nat.toString_eq_repr, bytesOf, Nat.toList_repr, Nat.toDigits_of_lt_base h, List.map_singleton,
    toUInt8_digitChar h]

theorem decimalText_of_le (h : 10 ≤ n) : decimalText n = decimalText (n / 10) ++ [lastDigit n] := by
  have hlast : (n % 10).digitChar.toUInt8 = lastDigit n := by
    rw [toUInt8_digitChar (Nat.mod_lt n (by decide)), lastDigit, lastDigit, Nat.mod_mod]
  rw [decimalText, decimalText, Nat.toString_eq_repr, Nat.toString_eq_repr, bytesOf, bytesOf, Nat.toList_repr,
    Nat.toList_repr, Nat.toDigits_of_base_le (by decide) h, List.map_append, List.map_singleton, hlast]

theorem toNat_lastDigit (n : ℕ) : (lastDigit n).toNat = 48 + n % 10 := by
  rw [lastDigit, UInt8.toNat_ofNat']
  omega

theorem isDigit_lastDigit (n : ℕ) : IsDigit (lastDigit n) := by
  unfold IsDigit
  rw [toNat_lastDigit]
  omega

theorem isDigit_of_mem_decimalText (hc : c ∈ decimalText n) : IsDigit c := by
  induction n using Nat.strongRecOn with
  | ind n ih =>
    rcases Nat.lt_or_ge n 10 with hlt | hle
    · rw [decimalText_of_lt hlt, List.mem_singleton] at hc
      exact hc ▸ isDigit_lastDigit n
    · rw [decimalText_of_le hle, List.mem_append, List.mem_singleton] at hc
      rcases hc with hc | rfl
      · exact ih (n / 10) (by omega) hc
      · exact isDigit_lastDigit n

theorem decimalText_ne_nil (n : ℕ) : decimalText n ≠ [] := by
  rcases Nat.lt_or_ge n 10 with hlt | hle
  · rw [decimalText_of_lt hlt]
    exact List.cons_ne_nil _ _
  · rw [decimalText_of_le hle]
    exact List.append_ne_nil_of_right_ne_nil _ (List.cons_ne_nil _ _)

theorem decimalValue_concat (digits : List UInt8) (n : ℕ) :
    decimalValue (digits ++ [lastDigit n]) = decimalValue digits * 10 + n % 10 := by
  rw [decimalValue, decimalFrom_append, decimalFrom_cons, decimalFrom_nil, toNat_lastDigit, Nat.add_sub_cancel_left]
  rfl

/-- The text of a number is read back as the number. -/
theorem decimalValue_decimalText (n : ℕ) : decimalValue (decimalText n) = n := by
  induction n using Nat.strongRecOn with
  | ind n ih =>
    rcases Nat.lt_or_ge n 10 with hlt | hle
    · have hlast := decimalValue_concat [] n
      rw [decimalText_of_lt hlt, ← List.nil_append [_], hlast]
      change 0 * 10 + n % 10 = n
      omega
    · rw [decimalText_of_le hle, decimalValue_concat, ih (n / 10) (by omega)]
      omega

theorem length_decimalText_le {k : ℕ} (hk : 0 < k) (h : n < 10 ^ k) : (decimalText n).length ≤ k := by
  rw [decimalText, bytesOf, List.length_map, String.length_toList]
  exact (Nat.length_repr_le_iff hk).mpr h

end JordyOS.Machine
