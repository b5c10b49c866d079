import Mathlib.Data.Finmap
import Mathlib.Data.Finset.Card

/-!
# Finite maps in slots

A finite map kept in an array of a fixed number of slots.  A slot is free or holds one entry, and no key
has two entries.
-/

namespace JordyOS.Machine

variable {Key Value : Type*} [DecidableEq Key]

/-- The first `capacity` slots hold the entries of `entries`. -/
structure Slots (capacity : ℕ) (slots : ℕ → Option (Key × Value)) (entries : Finmap fun _ : Key ↦ Value) :
    Prop where
  /-- No key has two entries. -/
  distinct : ∀ i < capacity, ∀ j < capacity, ∀ key value other,
    slots i = some (key, value) → slots j = some (key, other) → i = j
  lookup : ∀ key value, entries.lookup key = some value ↔ ∃ i < capacity, slots i = some (key, value)

namespace Slots

variable {capacity : ℕ} {slots : ℕ → Option (Key × Value)}
  {entries : Finmap fun _ : Key ↦ Value}

theorem mem_iff (h : Slots capacity slots entries) {key : Key} :
    key ∈ entries ↔ ∃ i < capacity, ∃ value, slots i = some (key, value) := by
  rw [Finmap.mem_iff]
  constructor
  · intro ⟨value, hvalue⟩
    obtain ⟨i, hi, hslot⟩ := (h.lookup key value).mp hvalue
    exact ⟨i, hi, value, hslot⟩
  · intro ⟨i, hi, value, hslot⟩
    exact ⟨value, (h.lookup key value).mpr ⟨i, hi, hslot⟩⟩

/-- All slots are free. -/
theorem empty (h : ∀ i < capacity, slots i = none) :
    Slots capacity slots (∅ : Finmap fun _ : Key ↦ Value) where
  distinct i hi _ _ key value _ hslot := by
    rw [h i hi] at hslot
    cases hslot
  lookup key value := by
    rw [Finmap.lookup_empty]
    refine iff_of_false nofun ?_
    intro ⟨i, hi, hslot⟩
    rw [h i hi] at hslot
    cases hslot

/-- An entry is written to a slot that is free or holds the key already; in the first case no other slot
holds the key. -/
theorem insert (h : Slots capacity slots entries) {i : ℕ} (hi : i < capacity) {key : Key} (value : Value)
    (hown : ∀ other old, slots i = some (other, old) → other = key)
    (hother : ∀ j < capacity, j ≠ i → ∀ old, slots j ≠ some (key, old)) :
    Slots capacity (Function.update slots i (some (key, value))) (entries.insert key value) where
  distinct j hj k hk other first second hfirst hsecond := by
    by_cases hji : j = i
    · subst hji
      rw [Function.update_self, Option.some.injEq, Prod.mk.injEq] at hfirst
      obtain ⟨rfl, -⟩ := hfirst
      by_contra hne
      rw [Function.update_of_ne (Ne.symm hne)] at hsecond
      exact hother k hk (Ne.symm hne) second hsecond
    · rw [Function.update_of_ne hji] at hfirst
      by_cases hki : k = i
      · subst hki
        rw [Function.update_self, Option.some.injEq, Prod.mk.injEq] at hsecond
        obtain ⟨rfl, -⟩ := hsecond
        exact absurd hfirst (hother j hj hji first)
      · rw [Function.update_of_ne hki] at hsecond
        exact h.distinct j hj k hk other first second hfirst hsecond
  lookup other found := by
    by_cases hkey : other = key
    · subst hkey
      rw [Finmap.lookup_insert, Option.some.injEq]
      constructor
      · intro hvalue
        exact ⟨i, hi, by rw [Function.update_self, hvalue]⟩
      · intro ⟨j, hj, hslot⟩
        by_cases hji : j = i
        · rw [hji, Function.update_self, Option.some.injEq, Prod.mk.injEq] at hslot
          exact hslot.2
        · rw [Function.update_of_ne hji] at hslot
          exact absurd hslot (hother j hj hji found)
    · rw [Finmap.lookup_insert_of_ne _ hkey, h.lookup]
      refine exists_congr fun j ↦ and_congr_right fun _ ↦ ?_
      by_cases hji : j = i
      · subst hji
        rw [Function.update_self]
        refine iff_of_false (fun hslot ↦ hkey (hown _ _ hslot)) fun hslot ↦ ?_
        rw [Option.some.injEq, Prod.mk.injEq] at hslot
        exact hkey hslot.1.symm
      · rw [Function.update_of_ne hji]

/-- The slot that holds a key is freed. -/
theorem erase (h : Slots capacity slots entries) {i : ℕ} (hi : i < capacity) {key : Key} {value : Value}
    (hslot : slots i = some (key, value)) :
    Slots capacity (Function.update slots i none) (entries.erase key) where
  distinct j hj k hk other first second hfirst hsecond := by
    have hkept : ∀ n : ℕ, ∀ entry, Function.update slots i none n = some entry → slots n = some entry := by
      intro n entry hn
      by_cases hni : n = i
      · rw [hni, Function.update_self] at hn
        cases hn
      · rwa [Function.update_of_ne hni] at hn
    exact h.distinct j hj k hk other first second (hkept j _ hfirst) (hkept k _ hsecond)
  lookup other found := by
    by_cases hkey : other = key
    · subst hkey
      rw [Finmap.lookup_erase]
      refine iff_of_false nofun ?_
      intro ⟨j, hj, hfound⟩
      by_cases hji : j = i
      · rw [hji, Function.update_self] at hfound
        cases hfound
      · rw [Function.update_of_ne hji] at hfound
        exact hji (h.distinct j hj i hi other found value hfound hslot)
    · rw [Finmap.lookup_erase_ne hkey, h.lookup]
      refine exists_congr fun j ↦ and_congr_right fun _ ↦ ?_
      by_cases hji : j = i
      · subst hji
        rw [Function.update_self, hslot, Option.some.injEq, Prod.mk.injEq]
        exact iff_of_false (fun hsame ↦ hkey hsame.1.symm) nofun
      · rw [Function.update_of_ne hji]

/-- There are as many entries as slots in use. -/
theorem card_eq (h : Slots capacity slots entries) :
    entries.keys.card = ((Finset.range capacity).filter fun i ↦ (slots i).isSome).card := by
  symm
  have hused : ∀ i ∈ (Finset.range capacity).filter fun i ↦ (slots i).isSome,
      i < capacity ∧ (slots i).isSome := by
    intro i hi
    rwa [Finset.mem_filter, Finset.mem_range] at hi
  refine Finset.card_bij (fun i hi ↦ ((slots i).get (hused i hi).2).1) ?_ ?_ ?_
  · intro i hi
    obtain ⟨hlt, hsome⟩ := hused i hi
    exact Finmap.mem_keys.mpr (h.mem_iff.mpr ⟨i, hlt, _, (Option.some_get hsome).symm⟩)
  · intro i hi j hj hsame
    obtain ⟨hi, hisome⟩ := hused i hi
    obtain ⟨hj, hjsome⟩ := hused j hj
    refine h.distinct i hi j hj ((slots i).get hisome).1 _ ((slots j).get hjsome).2
      (Option.some_get hisome).symm ?_
    rw [hsame]
    exact (Option.some_get hjsome).symm
  · intro key hkey
    obtain ⟨i, hi, value, hslot⟩ := h.mem_iff.mp (Finmap.mem_keys.mp hkey)
    have hsome : (slots i).isSome := by rw [hslot, Option.isSome_some]
    refine ⟨i, Finset.mem_filter.mpr ⟨Finset.mem_range.mpr hi, hsome⟩, ?_⟩
    simp only [hslot, Option.get_some]

theorem card_le (h : Slots capacity slots entries) : entries.keys.card ≤ capacity := by
  rw [h.card_eq]
  exact (Finset.card_filter_le _ _).trans (Finset.card_range capacity).le

/-- The map is full when no slot is free. -/
theorem card_eq_capacity_iff (h : Slots capacity slots entries) :
    entries.keys.card = capacity ↔ ∀ i < capacity, (slots i).isSome := by
  rw [h.card_eq]
  constructor
  · intro hfull i hi
    have hall := Finset.filter_card_eq (hfull.trans (Finset.card_range capacity).symm)
    exact hall i (Finset.mem_range.mpr hi)
  · intro hall
    rw [Finset.filter_true_of_mem fun i hi ↦ hall i (Finset.mem_range.mp hi), Finset.card_range]

end Slots

end JordyOS.Machine
