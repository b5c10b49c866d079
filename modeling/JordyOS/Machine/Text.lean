import JordyOS.Machine.Memory
import Mathlib.Data.List.Find
import Mathlib.Data.List.Range

/-!
# Strings in memory

The string functions of `kernel.c`.  A string ends at its first zero byte.  A function that may run
past the end of a buffer takes the capacity of the buffer, and has no value when it would.
-/

namespace JordyOS.Machine.Memory

/-- The first zero byte below `size`. -/
def terminator (s : Memory) (size : ℕ) : Option ℕ := (List.range size).find? fun i ↦ s i == 0

/-- `strlen` on a buffer of `capacity` bytes. -/
def strlen (s : Memory) (capacity : ℕ) : Option ℕ := s.terminator capacity

/-- `strcmp`, up to the difference of the first bytes that decide. -/
def strcmp (a b : Memory) (capacityA capacityB : ℕ) : Option ℤ :=
  ((List.range (min capacityA capacityB)).find? fun i ↦ a i == 0 || a i != b i).map fun i ↦
    (a i).toNat - (b i).toNat

/-- `strncpy(target + offset, source, size)`: the rest behind the string is cleared. -/
def strncpy (target : Memory) (offset : ℕ) (source : Memory) (size : ℕ) : Memory :=
  let length := (source.terminator size).getD size
  (target.copy offset source length).copy (offset + length) zero (size - length)

/-- The string in a buffer. -/
def text (s : Memory) (capacity : ℕ) : List UInt8 :=
  s.bytes ((s.strlen capacity).getD capacity)

theorem terminator_eq_some {s : Memory} {size n : ℕ} :
    s.terminator size = some n ↔ s n = 0 ∧ n < size ∧ ∀ i < n, s i ≠ 0 := by
  simp [terminator, List.find?_range_eq_some]

/-- A zero byte below the size is at or behind the terminator. -/
theorem exists_terminator {s : Memory} {size i : ℕ} (hi : i < size) (h : s i = 0) :
    ∃ n ≤ i, s.terminator size = some n := by
  cases hfound : s.terminator size with
  | none =>
    have hnone := List.find?_eq_none.mp hfound i (List.mem_range.mpr hi)
    exact absurd (beq_iff_eq.mpr h) hnone
  | some n =>
    obtain ⟨-, -, hbefore⟩ := terminator_eq_some.mp hfound
    exact ⟨n, Nat.le_of_not_lt fun hlt ↦ hbefore i hlt h, rfl⟩

theorem text_of_strlen {s : Memory} {capacity n : ℕ} (h : s.strlen capacity = some n) :
    s.text capacity = s.bytes n := by
  rw [text, h, Option.getD_some]

/-- What is left of a string that is cut to `size` bytes. -/
theorem terminator_getD {s : Memory} {capacity n : ℕ} (h : s.terminator capacity = some n) (size : ℕ) :
    (s.terminator size).getD size = min n size := by
  obtain ⟨hzero, -, hbefore⟩ := terminator_eq_some.mp h
  cases hcut : s.terminator size with
  | none =>
    have hle : size ≤ n := by
      refine Nat.le_of_not_lt fun hlt ↦ ?_
      obtain ⟨k, -, hk⟩ := exists_terminator hlt hzero
      rw [hcut] at hk
      cases hk
    exact (Nat.min_eq_right hle).symm
  | some k =>
    obtain ⟨hkzero, hklt, hkbefore⟩ := terminator_eq_some.mp hcut
    have hle : n ≤ k := Nat.le_of_not_lt fun hlt ↦ hbefore k hlt hkzero
    have hge : k ≤ n := Nat.le_of_not_lt fun hlt ↦ hkbefore n hlt hzero
    obtain rfl : n = k := Nat.le_antisymm hle hge
    exact (Nat.min_eq_left hklt.le).symm

/-- Strings within their buffers are compared as lists of bytes. -/
theorem strcmp_of_strlen {a b : Memory} {capacityA capacityB n m : ℕ}
    (ha : a.strlen capacityA = some n) (hb : b.strlen capacityB = some m) :
    ∃ difference, a.strcmp b capacityA capacityB = some difference ∧
      (difference = 0 ↔ a.bytes n = b.bytes m) := by
  obtain ⟨hazero, han, habefore⟩ := terminator_eq_some.mp ha
  obtain ⟨hbzero, hbm, hbbefore⟩ := terminator_eq_some.mp hb
  have hshorter : min n m < min capacityA capacityB := by omega
  have hdecides : (a (min n m) == 0 || a (min n m) != b (min n m)) = true := by
    rcases Nat.le_total n m with hle | hle
    · rw [Nat.min_eq_left hle, hazero]
      rfl
    · rw [Nat.min_eq_right hle, hbzero]
      by_cases hzero : a m = 0 <;> simp [hzero]
  unfold strcmp
  cases hfound : (List.range (min capacityA capacityB)).find? fun i ↦ a i == 0 || a i != b i with
  | none =>
    have hnone := List.find?_eq_none.mp hfound (min n m) (List.mem_range.mpr hshorter)
    exact absurd hdecides hnone
  | some k =>
    rw [List.find?_range_eq_some] at hfound
    obtain ⟨hk, -, hbefore⟩ := hfound
    refine ⟨_, rfl, ?_⟩
    have hsame : ∀ i < k, a i ≠ 0 ∧ a i = b i := by
      intro i hi
      simpa using hbefore i hi
    rw [Int.sub_eq_zero, Int.ofNat_inj, UInt8.toNat_inj, bytes_eq_bytes_iff]
    constructor
    · intro heq
      have hkzero : a k = 0 := by simpa [heq] using hk
      have hkn : k = n := by
        rcases Nat.lt_trichotomy k n with hlt | heq | hgt
        · exact absurd hkzero (habefore k hlt)
        · exact heq
        · exact absurd hazero (hsame n hgt).1
      have hkm : k = m := by
        rcases Nat.lt_trichotomy k m with hlt | heq | hgt
        · exact absurd (heq ▸ hkzero) (hbbefore k hlt)
        · exact heq
        · exact absurd ((hsame m hgt).2.trans hbzero) (hsame m hgt).1
      subst hkn hkm
      exact ⟨rfl, fun i hi ↦ (hsame i hi).2⟩
    · rintro ⟨rfl, hall⟩
      rcases Nat.lt_trichotomy k n with hlt | heq | hgt
      · exact hall k hlt
      · rw [heq, hazero, hbzero]
      · exact absurd hazero (hsame n hgt).1

/-- A string that fits is copied whole and terminated. -/
theorem strlen_strncpy {s : Memory} {capacity n size : ℕ} (h : s.strlen capacity = some n)
    (hn : n ≤ size) (target : Memory) :
    ((target.strncpy 0 s size).set size 0).strlen (size + 1) = some n ∧
      ((target.strncpy 0 s size).set size 0).bytes n = s.bytes n := by
  obtain ⟨hzero, -, hbefore⟩ := terminator_eq_some.mp h
  have hlength : (s.terminator size).getD size = n := by
    rw [terminator_getD h, Nat.min_eq_left hn]
  have hinside : ∀ i < n, ((target.strncpy 0 s size).set size 0) i = s i := by
    intro i hi
    rw [set_of_ne _ _ (by omega)]
    unfold strncpy
    rw [hlength, copy_below _ _ (by omega)]
    have hcopy : target.copy 0 s n (0 + i) = s i := copy_inside target s hi
    rwa [Nat.zero_add] at hcopy
  have hend : ((target.strncpy 0 s size).set size 0) n = 0 := by
    rcases Nat.lt_or_eq_of_le hn with hlt | rfl
    · rw [set_of_ne _ _ (by omega)]
      unfold strncpy
      have hcleared : (target.copy 0 s n).copy (0 + n) zero (size - n) (0 + n + 0) = zero 0 :=
        copy_inside _ _ (by omega)
      rw [hlength]
      simpa using hcleared
    · exact set_self _ _ _
  refine ⟨?_, bytes_eq_bytes_iff.mpr ⟨rfl, hinside⟩⟩
  rw [strlen, terminator_eq_some]
  refine ⟨hend, by omega, fun i hi ↦ ?_⟩
  rw [hinside i hi]
  exact hbefore i hi

end JordyOS.Machine.Memory
