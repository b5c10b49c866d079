import JordyOS.Ape.Layout

/-!
# The allocator

Each function of the heap changes the block list as the first-fit region is changed.
-/

namespace JordyOS.Ape

open Machine

/-- The region before anything was taken. -/
def initialCells : List Cell := [⟨arenaSize - headerSize, true⟩]

/-- The block list tiles the arena.  Before the first call `first` is null, and there is no list yet. -/
structure Tiled (arena : Arena) (h : Heap) (cells : List Cell) : Prop where
  list : Path h.memory h.first arena.base cells ∨ h.first = 0 ∧ cells = initialCells
  region : Cell.Region headerSize 16 arenaSize cells

variable {arena : Arena} {h : Heap} {cells : List Cell}

theorem Tiled.fits (ht : Tiled arena h cells) : arena.base + Cell.span headerSize cells ≤ 2 ^ 64 := by
  rw [ht.region.span_eq]
  exact arena.fits

theorem Tiled.length_lt (ht : Tiled arena h cells) : cells.length < heapRounds := by
  have hlength := Cell.length_mul_le_span headerSize ht.region.sized
  rw [ht.region.span_eq] at hlength
  unfold heapRounds
  unfold arenaSize headerSize at *
  omega

/-- A list with a block in use has been laid out. -/
theorem Tiled.path {q k : ℕ} (ht : Tiled arena h cells)
    (hq : (q, k) ∈ Cell.taken headerSize arena.base cells) : Path h.memory h.first arena.base cells := by
  rcases ht.list with hpath | ⟨-, rfl⟩
  · exact hpath
  · cases hq

/-- Memory that differs in the contents of a block in use. -/
theorem Tiled.of_contents {q k : ℕ} {m : Memory} (ht : Tiled arena h cells)
    (hq : (q, k) ∈ Cell.taken headerSize arena.base cells)
    (hsame : ∀ i, i < q ∨ q + k ≤ i → m i = h.memory i) : Tiled arena { h with memory := m } cells where
  list := Or.inl ((ht.path hq).of_contents hq hsame)
  region := ht.region

/-! ## Reset -/

theorem apeHeapReset_spec (arena : Arena) (h : Heap) :
    Path (apeHeapReset arena h).memory (apeHeapReset arena h).first arena.base initialCells ∧
      Kept h.memory (apeHeapReset arena h).memory arena.base initialCells := by
  have hpos := arena.pos
  refine ⟨⟨rfl, ?_, ?_, ?_⟩, Kept.of_cell [] fun i hi ↦ writeBlock_of_outside ?_⟩
  · exact blockSize_writeBlock
  · exact blockAvailable_writeBlock
  · exact blockNext_writeBlock
  · rw [Cell.span] at hi
    omega

theorem region_initialCells : Cell.Region headerSize 16 arenaSize initialCells :=
  Cell.Region.single (by decide) (by decide) (by decide)

/-! ## Sizes -/

theorem toNat_and_not_fifteen (word : UInt64) : (word &&& ~~~15).toNat = word.toNat / 16 * 16 := by
  have hmask : (~~~15 : UInt64).toNat = 2 ^ 4 * (2 ^ 60 - 1) := rfl
  rw [UInt64.toNat_and, hmask]
  exact and_highBits word.toNat_lt

/-- The rounded size fits where the size fits. -/
theorem roundSize_spec {size : UInt64} (hsize : size.toNat ≤ arenaSize - headerSize) :
    0 < (roundSize size).toNat ∧ 16 ∣ (roundSize size).toNat ∧
      ∀ n, 0 < n → 16 ∣ n → ((roundSize size).toNat ≤ n ↔ size.toNat ≤ n) := by
  unfold arenaSize headerSize at hsize
  have hadd : (size + 15).toNat = size.toNat + 15 := by
    have hfifteen : (15 : UInt64).toNat = 15 := rfl
    rw [UInt64.toNat_add, hfifteen]
    exact Nat.mod_eq_of_lt (by omega)
  have hround := toNat_and_not_fifteen (size + 15)
  rw [hadd] at hround
  have hzero : (size + 15) &&& ~~~15 = 0 ↔ size.toNat = 0 := by
    have hword : (0 : UInt64).toNat = 0 := rfl
    rw [← UInt64.toNat_inj, hround, hword]
    omega
  unfold roundSize
  dsimp only
  split
  · rename_i hnone
    have hsixteen : (16 : UInt64).toNat = 16 := rfl
    rw [hzero] at hnone
    rw [hsixteen]
    exact ⟨by decide, dvd_rfl, fun n hn hdvd ↦ by omega⟩
  · rename_i hsome
    rw [hzero] at hsome
    rw [hround]
    exact ⟨by omega, Nat.dvd_mul_left 16 _, fun n hn hdvd ↦ by omega⟩

/-! ## `malloc` -/

/-- What a call leaves: a new block, or nothing new because no free block was large enough. -/
structure Placed (arena : Arena) (h : Heap) (cells : List Cell) (size : ℕ) (h' : Heap) (p : ℕ)
    (next : List Cell) : Prop where
  tiled : Tiled arena h' next
  span_eq : Cell.span headerSize cells = arenaSize
  kept : Kept h.memory h'.memory arena.base cells
  null : p = 0 → next = cells ∧ (h.first ≠ 0 → h' = h) ∧
    ∀ c ∈ cells, c.available = true → c.size < size
  fresh : p ≠ 0 → (∀ k, (p, k) ∉ Cell.taken headerSize arena.base cells) ∧
    ∃ n, size ≤ n ∧ ∀ q k, (q, k) ∈ Cell.taken headerSize arena.base next ↔
      q = p ∧ k = n ∨ (q, k) ∈ Cell.taken headerSize arena.base cells

/-- A list that is there is searched. -/
theorem malloc_of_path (hpath : Path h.memory h.first arena.base cells)
    (hregion : Cell.Region headerSize 16 arenaSize cells) (size : UInt64) :
    ∃ h' p next, malloc arena h size = some (h', p) ∧
      Placed arena h cells size.toNat h' p next := by
  have ht : Tiled arena h cells := ⟨Or.inl hpath, hregion⟩
  have hfirst : h.first ≠ 0 := by
    rw [hpath.eq_base (hregion.ne_nil (by decide))]
    exact arena.pos.ne'
  have hnone : (∀ c ∈ cells, c.available = true → c.size < size.toNat) →
      Placed arena h cells size.toNat h 0 cells := fun hsmall ↦
    ⟨ht, hregion.span_eq, Kept.refl _ _ _, fun _ ↦ ⟨rfl, fun _ ↦ rfl, hsmall⟩, fun hp ↦ absurd rfl hp⟩
  unfold malloc
  rw [if_neg hfirst]
  by_cases hlarge : size.toNat > arenaSize - headerSize
  · refine ⟨h, 0, cells, if_pos hlarge, hnone fun c hc _ ↦ ?_⟩
    have hspan := Cell.size_le_span headerSize hc
    rw [hregion.span_eq] at hspan
    omega
  · obtain ⟨hpos, hdvd, hround⟩ := roundSize_spec (Nat.le_of_not_lt hlarge)
    simp only [if_neg hlarge]
    cases hfound : Cell.allocate headerSize 16 (roundSize size).toNat arena.base cells with
    | none =>
      rw [mallocLoop_of_none hpath arena.pos ht.length_lt hfound]
      refine ⟨h, 0, cells, rfl, hnone fun c hc havailable ↦ ?_⟩
      have hsmall := Cell.allocate_eq_none_iff.mp hfound c hc havailable
      obtain ⟨hcpos, hcdvd⟩ := hregion.sized c hc
      rw [← Nat.not_le] at hsmall ⊢
      exact fun hfits ↦ hsmall ((hround c.size hcpos hcdvd).mpr hfits)
    | some found =>
      obtain ⟨a, next⟩ := found
      obtain ⟨m', hloop, hpath', hkept⟩ := mallocLoop_of_some hpath arena.pos ht.fits ht.length_lt hfound
      obtain ⟨hregion', hfresh, n, hn, htaken⟩ := hregion.allocate (by decide) (by decide) (by decide)
        hpos hdvd hfound
      rw [hloop]
      refine ⟨{ h with memory := m' }, a + headerSize, next, rfl,
        ⟨Or.inl hpath', hregion'⟩, hregion.span_eq, hkept, ?_, ?_⟩
      · intro hp
        exact absurd hp (Nat.add_pos_right a (by decide)).ne'
      · exact fun _ ↦ ⟨hfresh, n, ((hround _ hpos hdvd).mp le_rfl).trans hn, htaken⟩

theorem malloc_spec (ht : Tiled arena h cells) (size : UInt64) :
    ∃ h' p next, malloc arena h size = some (h', p) ∧
      Placed arena h cells size.toNat h' p next := by
  rcases ht.list with hpath | ⟨hfirst, rfl⟩
  · exact malloc_of_path hpath ht.region size
  · obtain ⟨hpath, hkept⟩ := apeHeapReset_spec arena h
    obtain ⟨h', p, next, hmalloc, hplaced⟩ := malloc_of_path hpath region_initialCells size
    have hreset : malloc arena h size = malloc arena (apeHeapReset arena h) size := by
      unfold malloc
      rw [if_pos hfirst, if_neg arena.pos.ne' (c := (apeHeapReset arena h).first = 0)]
    refine ⟨h', p, next, hreset.trans hmalloc, hplaced.tiled, hplaced.span_eq, ?_, ?_,
      hplaced.fresh⟩
    · exact hkept.trans hplaced.kept rfl fun q k hq ↦ hq
    · intro hp
      obtain ⟨hsame, -, hsmall⟩ := hplaced.null hp
      exact ⟨hsame, fun hne ↦ absurd hfirst hne, hsmall⟩

/-- The new block is filled. -/
theorem Placed.fill {size p : ℕ} {h' : Heap} {next : List Cell} {m : Memory}
    (hplaced : Placed arena h cells size h' p next) (hp : p ≠ 0)
    (hsame : ∀ i, i < p ∨ p + size ≤ i → m i = h'.memory i) :
    Placed arena h cells size { h' with memory := m } p next := by
  obtain ⟨hfresh, n, hn, htaken⟩ := hplaced.fresh hp
  have hnew : (p, n) ∈ Cell.taken headerSize arena.base next := (htaken p n).mpr (Or.inl ⟨rfl, rfl⟩)
  have hwithin := Cell.within_of_mem_taken hnew
  have hspan : Cell.span headerSize next = Cell.span headerSize cells := by
    rw [hplaced.tiled.region.span_eq, ← hplaced.span_eq]
  refine ⟨hplaced.tiled.of_contents hnew fun i hi ↦ hsame i (by omega), hplaced.span_eq, ⟨?_, ?_⟩,
    fun hnull ↦ absurd hnull hp, hplaced.fresh⟩
  · intro i hi
    exact (hsame i (by omega)).trans (hplaced.kept.outside i hi)
  · intro q k hq i hi
    refine (hsame (q + i) ?_).trans (hplaced.kept.contents q k hq i hi)
    rcases Cell.apart_of_mem_taken ((htaken q k).mpr (Or.inr hq)) hnew with ⟨rfl, -⟩ | hbefore | hafter
    · exact absurd hq (hfresh k)
    · omega
    · omega

/-! ## `free` -/

theorem free_spec {q k : ℕ} (ht : Tiled arena h cells)
    (hq : (q, k) ∈ Cell.taken headerSize arena.base cells) :
    ∃ h' next, free h q = some h' ∧ Tiled arena h' next ∧ Kept h.memory h'.memory arena.base next ∧
      ∀ p n, (p, n) ∈ Cell.taken headerSize arena.base next ↔
        (p, n) ∈ Cell.taken headerSize arena.base cells ∧ p ≠ q := by
  obtain ⟨hflag, hkeptFlag⟩ := path_release (ht.path hq) hq
  obtain ⟨before, c, rest, hcells, hrelease, -, hc, -⟩ := Cell.release_eq (by decide) hq
  have hspan : Cell.span headerSize (Cell.release headerSize q arena.base cells) =
      Cell.span headerSize cells := by
    rw [hrelease, hcells]
    simp only [Cell.span_append, Cell.span_cons]
  have hlength : (Cell.release headerSize q arena.base cells).length = cells.length := by
    rw [hrelease, hcells]
    simp only [List.length_append, List.length_cons]
  obtain ⟨m', hloop, hpath, hkept⟩ := freeLoop_spec hflag arena.pos (by rw [hspan]; exact ht.fits)
    (by rw [hlength]; exact ht.length_lt)
  obtain ⟨hregion, htaken⟩ := ht.region.release (by decide) (by decide) hq
  have hne : q ≠ 0 := by
    have hwithin := (Cell.within_of_mem_taken hq).1
    have hpos := arena.pos
    omega
  refine ⟨{ h with memory := m' }, Cell.coalesce headerSize (Cell.release headerSize q arena.base cells),
    ?_, ⟨Or.inl hpath, hregion⟩, ?_, htaken⟩
  · rw [free, if_neg hne, hloop, Option.map_some]
  · constructor
    · intro i hi
      rw [Cell.span_coalesce, hspan] at hi
      exact (hkept.outside i (by rwa [hspan])).trans (hkeptFlag.outside i hi)
    · intro p n hp i hi
      rw [Cell.taken_coalesce] at hp
      have hold := ((htaken p n).mp (by rwa [Cell.taken_coalesce])).1
      exact (hkept.contents p n hp i hi).trans (hkeptFlag.contents p n hold i hi)

end JordyOS.Ape
