import JordyOS.Machine.Memory
import Mathlib.Algebra.BigOperators.Group.List.Basic
import Mathlib.Data.Nat.ModEq

/-!
# Records in a ring

Byte records of different lengths, one behind the other in a circular buffer.  Offsets are not reduced
to the buffer; a byte lies at its offset modulo the capacity.  Each record has a span, which may be
longer than the record itself, and what is written behind the last span leaves the records alone.
-/

namespace JordyOS.Machine.Ring

/-- Write `bytes` from `offset` on, and go on at the front behind the end of the buffer. -/
def put (capacity : ℕ) (ring : Memory) (offset : ℕ) (bytes : List UInt8) : Memory := fun i ↦
  let k := (i + (capacity - offset % capacity)) % capacity
  if k < bytes.length then bytes.getD k 0 else ring i

/-- The bytes from `offset` on. -/
def Stored (capacity : ℕ) (ring : Memory) (offset : ℕ) (bytes : List UInt8) : Prop :=
  ∀ k < bytes.length, ring ((offset + k) % capacity) = bytes.getD k 0

variable {capacity : ℕ} {ring : Memory} {offset : ℕ} {bytes other : List UInt8}

/-- How far a place lies behind the place of `offset`. -/
theorem distance (hcapacity : 0 < capacity) (offset : ℕ) {k : ℕ} (hk : k < capacity) :
    ((offset + k) % capacity + (capacity - offset % capacity)) % capacity = k := by
  have hlt := Nat.mod_lt offset hcapacity
  have hround : offset + (capacity - offset % capacity) = capacity * (offset / capacity + 1) := by
    have hdivide := Nat.div_add_mod offset capacity
    rw [Nat.mul_succ]
    omega
  calc ((offset + k) % capacity + (capacity - offset % capacity)) % capacity
      = (offset + k + (capacity - offset % capacity)) % capacity := Nat.mod_add_mod _ _ _
    _ = (k + capacity * (offset / capacity + 1)) % capacity := by
        rw [← hround]
        congr 1
        omega
    _ = k := by rw [Nat.add_mul_mod_self_left, Nat.mod_eq_of_lt hk]

/-- Only the place in the buffer counts. -/
theorem put_mod (capacity : ℕ) (ring : Memory) (offset : ℕ) (bytes : List UInt8) :
    put capacity ring (offset % capacity) bytes = put capacity ring offset bytes := by
  unfold put
  rw [Nat.mod_mod]

theorem stored_put (hcapacity : 0 < capacity) (hfits : bytes.length ≤ capacity) :
    Stored capacity (put capacity ring offset bytes) offset bytes := by
  intro k hk
  unfold put
  dsimp only
  rw [distance hcapacity offset (hk.trans_le hfits), if_pos hk]

/-- What is written `gap` bytes further on leaves the record alone. -/
theorem Stored.put (h : Stored capacity ring offset bytes) {gap : ℕ} (hgap : bytes.length ≤ gap)
    (hroom : gap + other.length ≤ capacity) :
    Stored capacity (put capacity ring (offset + gap) other) offset bytes := by
  intro k hk
  have hplace : (offset + k) % capacity = (offset + gap + (k + capacity - gap)) % capacity := by
    have hround : offset + gap + (k + capacity - gap) = offset + k + capacity := by omega
    rw [hround, Nat.add_mod_right]
  have hbefore : k + capacity - gap < capacity := by omega
  have hdistance := distance (Nat.zero_lt_of_lt hbefore) (offset + gap) hbefore
  rw [← hplace] at hdistance
  unfold Ring.put
  dsimp only
  rw [hdistance, if_neg (by omega)]
  exact h k hk

/-! ## Queues of records -/

section Queue

variable {α : Type*} (span : α → ℕ) (encodes : List UInt8 → α → Prop)

/-- The length of all spans together. -/
def total (l : List α) : ℕ := (l.map span).sum

@[simp]
theorem total_nil : total span [] = 0 := rfl

@[simp]
theorem total_cons (a : α) (l : List α) : total span (a :: l) = span a + total span l := List.sum_cons

theorem total_append (l m : List α) : total span (l ++ m) = total span l + total span m := by
  unfold total
  rw [List.map_append, List.sum_append]

/-- Records of the values stand one behind the other from `offset` on. -/
def Queued (capacity : ℕ) (ring : Memory) : ℕ → List α → Prop
  | _, [] => True
  | offset, a :: l => (∃ bytes, encodes bytes a ∧ Stored capacity ring offset bytes) ∧
      Queued capacity ring (offset + span a) l

variable {span encodes}

theorem queued_append {l m : List α} : Queued span encodes capacity ring offset (l ++ m) ↔
    Queued span encodes capacity ring offset l ∧
      Queued span encodes capacity ring (offset + total span l) m := by
  induction l generalizing offset with
  | nil => exact (true_and _).symm.to_iff
  | cons a l ih => rw [List.cons_append, Queued, Queued, ih, total_cons, and_assoc, Nat.add_assoc]

/-- Only the place in the buffer counts. -/
theorem queued_congr {l : List α} {first second : ℕ} (h : first % capacity = second % capacity) :
    Queued span encodes capacity ring first l ↔ Queued span encodes capacity ring second l := by
  have hadd : ∀ k, (first + k) % capacity = (second + k) % capacity := fun k ↦ Nat.ModEq.add_right k h
  induction l generalizing first second with
  | nil => exact Iff.rfl
  | cons a l ih =>
    have hstored : ∀ bytes, Stored capacity ring first bytes ↔ Stored capacity ring second bytes :=
      fun bytes ↦ forall₂_congr fun k _ ↦ by rw [hadd k]
    have hrest := ih (hadd (span a)) fun k ↦ by rw [Nat.add_assoc, Nat.add_assoc, hadd]
    simp only [Queued, hstored, hrest]

variable (hspan : ∀ bytes a, encodes bytes a → bytes.length ≤ span a)
include hspan

theorem Queued.put {l : List α} (h : Queued span encodes capacity ring offset l) {gap : ℕ}
    (hgap : total span l ≤ gap) (hroom : gap + other.length ≤ capacity) :
    Queued span encodes capacity (put capacity ring (offset + gap) other) offset l := by
  induction l generalizing offset gap with
  | nil => trivial
  | cons a l ih =>
    obtain ⟨⟨bytes, hbytes, hstored⟩, hrest⟩ := h
    have hlength := hspan bytes a hbytes
    rw [total_cons] at hgap
    obtain ⟨rest, rfl⟩ := Nat.exists_eq_add_of_le (Nat.le_of_add_right_le hgap)
    refine ⟨⟨bytes, hbytes, hstored.put (hlength.trans (Nat.le_add_right _ _)) hroom⟩, ?_⟩
    rw [← Nat.add_assoc]
    exact ih hrest (by omega) (by omega)

/-- A record written behind the queue joins it. -/
theorem Queued.concat {l : List α} {a : α} (h : Queued span encodes capacity ring offset l)
    (ha : encodes other a) (hcapacity : 0 < capacity) (hroom : total span l + span a ≤ capacity) :
    Queued span encodes capacity (Ring.put capacity ring (offset + total span l) other) offset
      (l ++ [a]) := by
  have hlength := hspan other a ha
  refine queued_append.mpr ⟨h.put hspan le_rfl (by omega), ⟨other, ha, ?_⟩, trivial⟩
  exact stored_put hcapacity (by omega)

end Queue

end JordyOS.Machine.Ring
