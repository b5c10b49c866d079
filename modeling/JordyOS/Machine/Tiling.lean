import Mathlib.Algebra.BigOperators.Group.Finset.Piecewise
import Mathlib.Algebra.Order.BigOperators.Group.Finset
import Mathlib.Data.Fintype.Basic
import Mathlib.Order.Interval.Finset.Nat

/-!
# Unordered tilings of an interval

A finite family of optional pieces tiles `[low, high)` when every piece present is a non-empty
subinterval and every position lies in exactly one of them.  Nothing is said about the order in
which the pieces are stored.  Tilings are closed under the three updates of a queue of outstanding
work: appending a piece, dropping everything below a position, and clearing.
-/

namespace JordyOS.Machine

variable {Index : Type*}

/-- Position `position` belongs to the piece stored at `index`. -/
def Covers (pieces : Index → Option (ℕ × ℕ)) (index : Index) (position : ℕ) : Prop :=
  ∃ piece, pieces index = some piece ∧ piece.1 ≤ position ∧ position < piece.2

structure Tiles (pieces : Index → Option (ℕ × ℕ)) (low high : ℕ) : Prop where
  within : ∀ index piece, pieces index = some piece →
    low ≤ piece.1 ∧ piece.1 < piece.2 ∧ piece.2 ≤ high
  exactlyOne : ∀ position, low ≤ position → position < high →
    ∃! index, Covers pieces index position

/-- The pieces in the order of the line: each starts where the one before it stops. -/
def Chain (pieces : Index → Option (ℕ × ℕ)) : ℕ → List Index → ℕ → Prop
  | low, [], high => low = high
  | low, index :: rest, high =>
    ∃ next, pieces index = some (low, next) ∧ low < next ∧ Chain pieces next rest high

/-- What is left of a piece at and above `cut`. -/
def trimPiece (cut : ℕ) (piece : ℕ × ℕ) : Option (ℕ × ℕ) :=
  if piece.2 ≤ cut then none else some (max piece.1 cut, piece.2)

/-- How much of a piece lies below `cut`. -/
def below (cut : ℕ) : Option (ℕ × ℕ) → ℕ
  | none => 0
  | some piece => min piece.2 cut - piece.1

namespace Tiles

variable {pieces : Index → Option (ℕ × ℕ)} {low high : ℕ}

theorem of_none (hnone : ∀ index, pieces index = none) : Tiles pieces low low where
  within index piece h := by simp [hnone] at h
  exactlyOne position hlow hhigh := by omega

theorem eq_none (h : Tiles pieces low low) (index : Index) : pieces index = none := by
  cases hpiece : pieces index with
  | none => rfl
  | some piece =>
    have := h.within index piece hpiece
    omega

theorem eq_of_covers (h : Tiles pieces low high) {first second : Index} {position : ℕ}
    (hfirst : Covers pieces first position) (hsecond : Covers pieces second position) :
    first = second := by
  obtain ⟨piece, hpiece, hbelow, habove⟩ := hfirst
  have hwithin := h.within first piece hpiece
  exact (h.exactlyOne position (by omega) (by omega)).unique ⟨piece, hpiece, hbelow, habove⟩ hsecond

/-- The piece starting at the lower end exists as soon as there is anything to cover. -/
theorem exists_first (h : Tiles pieces low high) (hlt : low < high) :
    ∃ index last, pieces index = some (low, last) ∧ low < last ∧ last ≤ high := by
  obtain ⟨index, ⟨piece, hpiece, hbelow, habove⟩, -⟩ := h.exactlyOne low le_rfl hlt
  have hwithin := h.within index piece hpiece
  have hstart : piece.1 = low := by omega
  exact ⟨index, piece.2, by rw [hpiece, ← hstart], by omega, by omega⟩

theorem eq_of_start (h : Tiles pieces low high) {first second : Index} {one two : ℕ × ℕ}
    (hone : pieces first = some one) (htwo : pieces second = some two)
    (hstart : one.1 = two.1) : first = second := by
  have := h.within first one hone
  have := h.within second two htwo
  exact h.eq_of_covers ⟨one, hone, le_rfl, by omega⟩ ⟨two, htwo, by omega, by omega⟩

theorem push [DecidableEq Index] (h : Tiles pieces low high) {slot : Index} {size : ℕ}
    (hslot : pieces slot = none) (horder : low ≤ high) (hsize : 0 < size) :
    Tiles (Function.update pieces slot (some (high, high + size))) low (high + size) where
  within index piece hpiece := by
    by_cases hindex : index = slot
    · subst hindex
      rw [Function.update_self] at hpiece
      cases hpiece
      exact ⟨horder, by omega, le_rfl⟩
    · rw [Function.update_of_ne hindex] at hpiece
      have := h.within index piece hpiece
      omega
  exactlyOne position hlow hhigh := by
    have hkept : ∀ index, index ≠ slot →
        (Covers (Function.update pieces slot (some (high, high + size))) index position ↔
          Covers pieces index position) := by
      intro index hindex
      simp only [Covers, Function.update_of_ne hindex]
    have hnew : Covers (Function.update pieces slot (some (high, high + size))) slot position ↔
        high ≤ position := by
      simp [Covers, hhigh]
    by_cases hposition : position < high
    · obtain ⟨index, hcovers, hunique⟩ := h.exactlyOne position hlow hposition
      have hindex : index ≠ slot := by
        rintro rfl
        obtain ⟨piece, hpiece, -⟩ := hcovers
        simp [hslot] at hpiece
      refine ⟨index, (hkept index hindex).mpr hcovers, ?_⟩
      intro other hother
      have hne : other ≠ slot := by
        rintro rfl
        have := hnew.mp hother
        omega
      exact hunique other ((hkept other hne).mp hother)
    · refine ⟨slot, hnew.mpr (by omega), ?_⟩
      intro other hother
      by_contra hne
      obtain ⟨piece, hpiece, -, habove⟩ := (hkept other hne).mp hother
      have := h.within other piece hpiece
      omega

theorem covers_trim {index : Index} {cut position : ℕ} (hcut : cut ≤ position) :
    Covers (fun i ↦ (pieces i).bind (trimPiece cut)) index position ↔
      Covers pieces index position := by
  cases hpiece : pieces index with
  | none => simp [Covers, hpiece]
  | some piece =>
    by_cases hend : piece.2 ≤ cut
    · simp [Covers, hpiece, trimPiece, hend]
      omega
    · simp [Covers, hpiece, trimPiece, hend]
      omega

theorem trim (h : Tiles pieces low high) {cut : ℕ} (hlow : low ≤ cut) :
    Tiles (fun i ↦ (pieces i).bind (trimPiece cut)) cut high where
  within index piece hpiece := by
    obtain ⟨whole, hwhole, htrim⟩ := Option.bind_eq_some_iff.mp hpiece
    have hwithin := h.within index whole hwhole
    unfold trimPiece at htrim
    split at htrim
    · cases htrim
    · cases htrim
      simp only
      omega
  exactlyOne position hposition hhigh := by
    simp only [covers_trim hposition]
    exact h.exactlyOne position (by omega) hhigh

/-- The parts of the pieces below `cut` add up to the distance covered. -/
theorem sum_below [Fintype Index] (h : Tiles pieces low high) {cut : ℕ} (hhigh : cut ≤ high) :
    ∑ index, below cut (pieces index) = cut - low := by
  classical
  have hcount : ∀ index, below cut (pieces index) =
      ∑ position ∈ Finset.Ico low cut, if Covers pieces index position then 1 else 0 := by
    intro index
    rw [← Finset.card_filter]
    cases hpiece : pieces index with
    | none => simp [below, Covers, hpiece]
    | some piece =>
      have hwithin := h.within index piece hpiece
      have hfilter : (Finset.Ico low cut).filter (fun p ↦ Covers pieces index p) =
          Finset.Ico piece.1 (min piece.2 cut) := by
        ext position
        simp only [Finset.mem_filter, Finset.mem_Ico, Covers, hpiece, Option.some.injEq,
          exists_eq_left']
        omega
      rw [hfilter, Nat.card_Ico, below]
  calc
    ∑ index, below cut (pieces index) =
        ∑ index, ∑ position ∈ Finset.Ico low cut,
          if Covers pieces index position then 1 else 0 :=
      Finset.sum_congr rfl fun index _ ↦ hcount index
    _ = ∑ position ∈ Finset.Ico low cut, ∑ index,
          if Covers pieces index position then 1 else 0 := Finset.sum_comm
    _ = ∑ position ∈ Finset.Ico low cut, 1 := by
      refine Finset.sum_congr rfl fun position hposition ↦ ?_
      rw [Finset.mem_Ico] at hposition
      obtain ⟨owner, howner, hunique⟩ :=
        h.exactlyOne position hposition.1 (by omega)
      rw [Finset.sum_eq_single owner, if_pos howner]
      · intro other _ hne
        exact if_neg fun hother ↦ hne (hunique other hother)
      · intro hmem
        exact absurd (Finset.mem_univ owner) hmem
    _ = cut - low := by rw [← Finset.card_eq_sum_ones, Nat.card_Ico]

theorem remove_first [DecidableEq Index] (h : Tiles pieces low high) {index : Index} {last : ℕ}
    (hfirst : pieces index = some (low, last)) :
    Tiles (Function.update pieces index none) last high where
  within other piece hpiece := by
    have hne : other ≠ index := by
      rintro rfl
      simp at hpiece
    rw [Function.update_of_ne hne] at hpiece
    have hother := h.within other piece hpiece
    refine ⟨?_, hother.2⟩
    by_contra hlt
    have hrange := h.within index _ hfirst
    have hself : Covers pieces other piece.1 := ⟨piece, hpiece, le_rfl, hother.2.1⟩
    exact hne (h.eq_of_covers hself ⟨_, hfirst, hother.1, by simp only; omega⟩)
  exactlyOne position hlow hhigh := by
    have hrange := h.within index _ hfirst
    obtain ⟨owner, howner, hunique⟩ := h.exactlyOne position (by omega) hhigh
    have hne : owner ≠ index := by
      rintro rfl
      obtain ⟨piece, hpiece, -, habove⟩ := howner
      rw [hfirst] at hpiece
      cases hpiece
      simp only at habove
      omega
    refine ⟨owner, ?_, ?_⟩
    · simpa only [Covers, Function.update_of_ne hne] using howner
    · intro other hother
      have hother' : other ≠ index := by
        rintro rfl
        simp [Covers] at hother
      apply hunique
      simpa only [Covers, Function.update_of_ne hother'] using hother

theorem chain_of_update [DecidableEq Index] {index : Index} :
    ∀ {order : List Index} {low high : ℕ}, index ∉ order →
      Chain (Function.update pieces index none) low order high → Chain pieces low order high
  | [], _, _, _, h => h
  | other :: rest, low, high, hfresh, ⟨next, hpiece, hlt, hrest⟩ => by
    rw [List.mem_cons, not_or] at hfresh
    rw [Function.update_of_ne (Ne.symm hfresh.1)] at hpiece
    exact ⟨next, hpiece, hlt, chain_of_update hfresh.2 hrest⟩

/-- A tiling by finitely many pieces can be read off in the order of the line. -/
theorem exists_chain [DecidableEq Index] (h : Tiles pieces low high) (hle : low ≤ high) :
    ∃ order : List Index, order.Nodup ∧ (∀ index, index ∈ order ↔ (pieces index).isSome) ∧
      Chain pieces low order high := by
  induction hsize : high - low using Nat.strong_induction_on generalizing pieces low with
  | _ size ih =>
    rcases hle.eq_or_lt with rfl | hlt
    · refine ⟨[], List.nodup_nil, ?_, rfl⟩
      intro index
      simp [h.eq_none index]
    · obtain ⟨index, last, hfirst, hlast, hhigh⟩ := h.exists_first hlt
      obtain ⟨order, hnodup, hmem, hchain⟩ :=
        ih (high - last) (by omega) (h.remove_first hfirst) hhigh rfl
      have hfresh : index ∉ order := by simp [hmem]
      refine ⟨index :: order, hnodup.cons hfresh, ?_, last, hfirst, hlast, ?_⟩
      · intro other
        by_cases hother : other = index
        · subst hother
          simp [hfirst]
        · simp [hother, hmem]
      · exact chain_of_update hfresh hchain

end Tiles

end JordyOS.Machine
