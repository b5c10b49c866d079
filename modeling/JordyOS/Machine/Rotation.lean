import Mathlib.Tactic.Common

/-!
# Taking turns

Slots in a circle.  The turn passes from a slot to the next one behind it that is ready.  A slot that stays
ready comes nearer with each pass, so its turn comes after fewer passes than there are slots.
-/

namespace JordyOS.Machine.Rotation

/-- How far `i` lies behind `p` on a circle of `size` slots; `p` itself is a whole turn away. -/
def offset (size p i : ℕ) : ℕ := if p < i then i - p else i + size - p

/-- The search for a slot that is ready, from `n` on and as far as `p`. -/
def search (size : ℕ) (ready : ℕ → Bool) (p : ℕ) : (rounds n : ℕ) → ℕ
  | 0, n => n
  | rounds + 1, n => if ready n = false ∧ n ≠ p then search size ready p rounds ((n + 1) % size) else n

variable {size p i n : ℕ} {ready : ℕ → Bool}

theorem offset_cases (size p i : ℕ) :
    (p < i ∧ offset size p i = i - p) ∨ (i ≤ p ∧ offset size p i = i + size - p) := by
  rcases Nat.lt_or_ge p i with hlt | hge
  · exact Or.inl ⟨hlt, if_pos hlt⟩
  · exact Or.inr ⟨hge, if_neg (Nat.not_lt.mpr hge)⟩

theorem offset_lt (hp : p < size) (hi : i < size) (hne : i ≠ p) : offset size p i < size := by
  have h := offset_cases size p i
  omega

theorem offset_pos (hp : p < size) : 0 < offset size p i := by
  have h := offset_cases size p i
  omega

theorem succ_mod (hn : n < size) : (n + 1) % size = if n + 1 = size then 0 else n + 1 := by
  by_cases hend : n + 1 = size
  · rw [if_pos hend, hend, Nat.mod_self]
  · rw [if_neg hend, Nat.mod_eq_of_lt (by omega)]

/-- The slot behind. -/
theorem offset_next (hp : p < size) (hn : n < size) (hne : n ≠ p) :
    (n + 1) % size < size ∧ offset size p ((n + 1) % size) = offset size p n + 1 := by
  have h := offset_cases size p n
  have hnext := offset_cases size p ((n + 1) % size)
  refine ⟨Nat.mod_lt _ (Nat.zero_lt_of_lt hp), ?_⟩
  rw [succ_mod hn] at hnext ⊢
  by_cases hend : n + 1 = size
  · rw [if_pos hend] at hnext ⊢
    omega
  · rw [if_neg hend] at hnext ⊢
    omega

theorem offset_first (hp : p < size) : (p + 1) % size < size ∧ offset size p ((p + 1) % size) = 1 := by
  have hnext := offset_cases size p ((p + 1) % size)
  refine ⟨Nat.mod_lt _ (Nat.zero_lt_of_lt hp), ?_⟩
  rw [succ_mod hp] at hnext ⊢
  by_cases hend : p + 1 = size
  · rw [if_pos hend] at hnext ⊢
    omega
  · rw [if_neg hend] at hnext ⊢
    omega

/-- Of two slots behind `p`, the farther one lies behind the nearer one. -/
theorem offset_sub (hp : p < size) (hn : n < size) (hi : i < size) (hne : i ≠ n)
    (h : offset size p n ≤ offset size p i) : offset size p n + offset size n i = offset size p i := by
  have hpn := offset_cases size p n
  have hpi := offset_cases size p i
  have hni := offset_cases size n i
  omega

/-- No ready slot lies in front of `n`. -/
def Foremost (size : ℕ) (ready : ℕ → Bool) (p n : ℕ) : Prop :=
  ∀ i < size, i ≠ p → ready i = true → offset size p n ≤ offset size p i

/-- The search stops at the first slot that is ready, or at `p` when there is no other. -/
theorem search_stops {rounds : ℕ} (hp : p < size) (hn : n < size) (hrounds : size ≤ offset size p n + rounds)
    (hfirst : Foremost size ready p n) :
    search size ready p rounds n < size ∧
      (ready (search size ready p rounds n) = true ∨ search size ready p rounds n = p) ∧
      Foremost size ready p (search size ready p rounds n) := by
  induction rounds generalizing n with
  | zero =>
    have hend : n = p := by
      by_contra hne
      exact Nat.not_lt.mpr hrounds (offset_lt hp hn hne)
    exact ⟨hn, Or.inr hend, hfirst⟩
  | succ rounds ih =>
    unfold search
    by_cases hdead : ready n = false ∧ n ≠ p
    · obtain ⟨hlt, hnext⟩ := offset_next hp hn hdead.2
      rw [if_pos hdead]
      refine ih hlt (by omega) fun i hi hne hready ↦ ?_
      have hle := hfirst i hi hne hready
      have hneq : i ≠ n := by
        rintro rfl
        rw [hdead.1] at hready
        cases hready
      have hsub := offset_sub hp hn hi hneq hle
      have hpos := offset_pos hn (i := i)
      omega
    · rw [if_neg hdead]
      refine ⟨hn, ?_, hfirst⟩
      by_cases hready : ready n = true
      · exact Or.inl hready
      · exact Or.inr (not_not.mp fun hne ↦ hdead ⟨Bool.eq_false_iff.mpr hready, hne⟩)

theorem foremost_first (hp : p < size) : Foremost size ready p ((p + 1) % size) := by
  intro i _ _ _
  rw [(offset_first hp).2]
  exact offset_pos hp

/-- A whole search. -/
theorem search_spec (ready : ℕ → Bool) (hp : p < size) :
    search size ready p size ((p + 1) % size) < size ∧
      (ready (search size ready p size ((p + 1) % size)) = true ∨
        search size ready p size ((p + 1) % size) = p) ∧
      Foremost size ready p (search size ready p size ((p + 1) % size)) :=
  search_stops hp (offset_first hp).1 (Nat.le_add_left _ _) (foremost_first hp)

/-- When the turn passes to the foremost slot, every other slot that is ready comes nearer. -/
theorem offset_lt_of_foremost (hp : p < size) (hn : n < size) (hi : i < size) (hip : i ≠ p) (hin : i ≠ n)
    (hready : ready i = true) (h : Foremost size ready p n) : offset size n i < offset size p i := by
  have hsub := offset_sub hp hn hi hin (h i hi hip hready)
  have hpos := offset_pos hp (i := n)
  omega

end JordyOS.Machine.Rotation
