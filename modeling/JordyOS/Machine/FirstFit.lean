import Mathlib.Data.List.Chain
import Mathlib.Tactic.Common

/-!
# First-fit allocation

A region divided into cells, one behind the other, each with a header of `overhead` bytes.  A request
takes the first free cell that is large enough and leaves the remainder as a new cell when a header and
`granule` bytes fit in it.  A released cell is merged with its free neighbours.
-/

namespace JordyOS.Machine

/-- A cell of the region, without its header. -/
structure Cell where
  size : ℕ
  available : Bool
  deriving DecidableEq

namespace Cell

variable (overhead granule : ℕ)

/-- The bytes of the cells and their headers. -/
def span : List Cell → ℕ
  | [] => 0
  | c :: rest => overhead + c.size + span rest

/-- The address and the size of each cell in use; the first header stands at `b`. -/
def taken : ℕ → List Cell → List (ℕ × ℕ)
  | _, [] => []
  | b, c :: rest =>
    if c.available then taken (b + overhead + c.size) rest
    else (b + overhead, c.size) :: taken (b + overhead + c.size) rest

/-- The first cell is taken; `rest` follows it. -/
def split (size : ℕ) (c : Cell) (rest : List Cell) : List Cell :=
  if size + overhead + granule ≤ c.size then
    ⟨size, false⟩ :: ⟨c.size - size - overhead, true⟩ :: rest
  else ⟨c.size, false⟩ :: rest

/-- The header of the cell that is taken, and the cells after it was taken. -/
def allocate (size : ℕ) : ℕ → List Cell → Option (ℕ × List Cell)
  | _, [] => none
  | b, c :: rest =>
    if c.available = true ∧ size ≤ c.size then some (b, split overhead granule size c rest)
    else (allocate size (b + overhead + c.size) rest).map fun (a, cells) ↦ (a, c :: cells)

/-- The cell at the address `p` becomes free. -/
def release (p : ℕ) : ℕ → List Cell → List Cell
  | _, [] => []
  | b, c :: rest =>
    if p = b + overhead then ⟨c.size, true⟩ :: rest
    else c :: release p (b + overhead + c.size) rest

/-- Neighbours that are both free are merged. -/
def coalesce : List Cell → List Cell
  | c :: d :: rest =>
    if c.available = true ∧ d.available = true then
      coalesce (⟨c.size + (overhead + d.size), c.available⟩ :: rest)
    else c :: coalesce (d :: rest)
  | cells => cells
termination_by cells => cells.length

/-- No two neighbours are both free. -/
def Separated (cells : List Cell) : Prop :=
  cells.IsChain fun c d ↦ ¬ (c.available = true ∧ d.available = true)

/-- The sizes are positive multiples of the granule. -/
def Sized (cells : List Cell) : Prop := ∀ c ∈ cells, 0 < c.size ∧ granule ∣ c.size

variable {overhead granule}

/-! ## Addresses -/

variable {b : ℕ} {cells rest : List Cell} {c : Cell} {q k : ℕ}

theorem span_cons (c : Cell) (rest : List Cell) :
    span overhead (c :: rest) = overhead + c.size + span overhead rest := rfl

theorem taken_cons_available (h : c.available = true) :
    taken overhead b (c :: rest) = taken overhead (b + overhead + c.size) rest := if_pos h

theorem taken_cons_used (h : c.available = false) :
    taken overhead b (c :: rest) = (b + overhead, c.size) :: taken overhead (b + overhead + c.size) rest :=
  if_neg (Bool.eq_false_iff.mp h)

theorem mem_taken_cons : (q, k) ∈ taken overhead b (c :: rest) ↔
    c.available = false ∧ q = b + overhead ∧ k = c.size ∨
      (q, k) ∈ taken overhead (b + overhead + c.size) rest := by
  cases h : c.available with
  | true => simp [taken_cons_available h]
  | false => simp [taken_cons_used h]

/-- A cell in use lies in the region, behind its header. -/
theorem within_of_mem_taken (h : (q, k) ∈ taken overhead b cells) :
    b + overhead ≤ q ∧ q + k ≤ b + span overhead cells := by
  induction cells generalizing b with
  | nil => cases h
  | cons c rest ih =>
    rw [span_cons]
    rcases mem_taken_cons.mp h with ⟨-, rfl, rfl⟩ | h
    · omega
    · have := ih h
      omega

/-- Two cells in use do not overlap, and neither covers the header of the other. -/
theorem apart_of_mem_taken {p n : ℕ} (hfirst : (q, k) ∈ taken overhead b cells)
    (hsecond : (p, n) ∈ taken overhead b cells) :
    (q = p ∧ k = n) ∨ q + k + overhead ≤ p ∨ p + n + overhead ≤ q := by
  induction cells generalizing b with
  | nil => cases hfirst
  | cons c rest ih =>
    rcases mem_taken_cons.mp hfirst with ⟨-, rfl, rfl⟩ | hfirst
    · rcases mem_taken_cons.mp hsecond with ⟨-, rfl, rfl⟩ | hsecond
      · exact Or.inl ⟨rfl, rfl⟩
      · exact Or.inr (Or.inl (within_of_mem_taken hsecond).1)
    · rcases mem_taken_cons.mp hsecond with ⟨-, rfl, rfl⟩ | hsecond
      · exact Or.inr (Or.inr (within_of_mem_taken hfirst).1)
      · exact ih hfirst hsecond

theorem dvd_of_mem_taken (hb : granule ∣ b) (hoverhead : granule ∣ overhead) (hsized : Sized granule cells)
    (h : (q, k) ∈ taken overhead b cells) : granule ∣ q := by
  induction cells generalizing b with
  | nil => cases h
  | cons c rest ih =>
    obtain ⟨⟨-, hc⟩, hrest⟩ := List.forall_mem_cons.mp hsized
    rcases mem_taken_cons.mp h with ⟨-, rfl, -⟩ | h
    · exact Nat.dvd_add hb hoverhead
    · exact ih (Nat.dvd_add (Nat.dvd_add hb hoverhead) hc) hrest h

theorem size_le_span (overhead : ℕ) (h : c ∈ cells) : overhead + c.size ≤ span overhead cells := by
  induction cells with
  | nil => cases h
  | cons d rest ih =>
    rw [span_cons]
    rcases List.mem_cons.mp h with rfl | h
    · omega
    · have := ih h
      omega

/-- There is no room for more cells than this. -/
theorem length_mul_le_span (overhead : ℕ) (h : Sized granule cells) :
    cells.length * (overhead + granule) ≤ span overhead cells := by
  induction cells with
  | nil => simp
  | cons c rest ih =>
    obtain ⟨⟨hpos, hdvd⟩, hrest⟩ := List.forall_mem_cons.mp h
    have hc := Nat.le_of_dvd hpos hdvd
    have := ih hrest
    rw [span_cons, List.length_cons, Nat.succ_mul]
    omega

/-! ## Taking a cell -/

variable {size a : ℕ} {next : List Cell}

theorem allocate_eq_none_iff : allocate overhead granule size b cells = none ↔
    ∀ c ∈ cells, c.available = true → c.size < size := by
  induction cells generalizing b with
  | nil => simp [allocate]
  | cons c rest ih =>
    unfold allocate
    split
    · rename_i hfit
      refine iff_of_false nofun fun hall ↦ ?_
      exact absurd (hall c List.mem_cons_self hfit.1) (Nat.not_lt.mpr hfit.2)
    · rename_i hfit
      rw [Option.map_eq_none_iff, ih, List.forall_mem_cons]
      rw [not_and, Nat.not_le] at hfit
      exact (and_iff_right hfit).symm

/-- The cells that are passed over, the cell that is taken and the cells behind it. -/
theorem allocate_eq_some (h : allocate overhead granule size b cells = some (a, next)) :
    ∃ before c rest, cells = before ++ c :: rest ∧
      next = before ++ split overhead granule size c rest ∧ a = b + span overhead before ∧
      c.available = true ∧ size ≤ c.size ∧ ∀ d ∈ before, d.available = true → d.size < size := by
  induction cells generalizing b a next with
  | nil => cases h
  | cons c rest ih =>
    unfold allocate at h
    split at h
    · rename_i hfit
      rw [Option.some.injEq, Prod.mk.injEq] at h
      obtain ⟨rfl, rfl⟩ := h
      exact ⟨[], c, rest, rfl, rfl, rfl, hfit.1, hfit.2, nofun⟩
    · rename_i hfit
      rw [Option.map_eq_some_iff] at h
      obtain ⟨⟨other, found⟩, hfound, hsame⟩ := h
      rw [Prod.mk.injEq] at hsame
      obtain ⟨rfl, rfl⟩ := hsame
      obtain ⟨before, d, after, rfl, rfl, rfl, havailable, hsize, hbefore⟩ := ih hfound
      refine ⟨c :: before, d, after, rfl, rfl, ?_, havailable, hsize, ?_⟩
      · rw [span_cons]
        omega
      · rw [not_and, Nat.not_le] at hfit
        exact List.forall_mem_cons.mpr ⟨hfit, hbefore⟩

theorem span_append (before after : List Cell) :
    span overhead (before ++ after) = span overhead before + span overhead after := by
  induction before with
  | nil => exact (Nat.zero_add _).symm
  | cons c before ih =>
    rw [List.cons_append, span_cons, span_cons, ih]
    omega

theorem taken_append (b : ℕ) (before after : List Cell) : taken overhead b (before ++ after) =
    taken overhead b before ++ taken overhead (b + span overhead before) after := by
  induction before generalizing b with
  | nil => rfl
  | cons c before ih =>
    have haddress : b + overhead + c.size + span overhead before = b + span overhead (c :: before) := by
      rw [span_cons]
      omega
    rw [List.cons_append, ← haddress]
    cases hc : c.available with
    | true => rw [taken_cons_available hc, taken_cons_available hc, ih]
    | false => rw [taken_cons_used hc, taken_cons_used hc, ih, List.cons_append]

theorem span_split (size : ℕ) (c : Cell) (rest : List Cell) :
    span overhead (split overhead granule size c rest) = span overhead (c :: rest) := by
  unfold split
  split
  · simp only [span]
    omega
  · rfl

/-- The cell that was taken is new, and at least as large as the request. -/
theorem mem_taken_split (overhead granule : ℕ) (h : size ≤ c.size) (a : ℕ) (rest : List Cell) :
    ∃ n, size ≤ n ∧ n ≤ c.size ∧ ∀ q k, (q, k) ∈ taken overhead a (split overhead granule size c rest) ↔
      q = a + overhead ∧ k = n ∨ (q, k) ∈ taken overhead (a + overhead + c.size) rest := by
  unfold split
  split
  · have haddress : a + overhead + size + overhead + (c.size - size - overhead) =
        a + overhead + c.size := by omega
    refine ⟨size, le_rfl, h, fun q k ↦ ?_⟩
    rw [taken_cons_used rfl, taken_cons_available rfl, haddress, List.mem_cons, Prod.mk.injEq]
  · refine ⟨c.size, h, le_rfl, fun q k ↦ ?_⟩
    rw [taken_cons_used rfl, List.mem_cons, Prod.mk.injEq]

theorem Sized.split (h : Sized granule (c :: rest)) (hgranule : 0 < granule) (hoverhead : granule ∣ overhead)
    (hpos : 0 < size) (hsize : granule ∣ size) :
    Sized granule (Cell.split overhead granule size c rest) := by
  obtain ⟨⟨hc, hdvd⟩, hrest⟩ := List.forall_mem_cons.mp h
  unfold Cell.split
  split
  · refine List.forall_mem_cons.mpr ⟨⟨hpos, hsize⟩, List.forall_mem_cons.mpr ⟨⟨?_, ?_⟩, hrest⟩⟩
    · dsimp only
      omega
    · exact Nat.dvd_sub (Nat.dvd_sub hdvd hsize) hoverhead
  · exact List.forall_mem_cons.mpr ⟨⟨hc, hdvd⟩, hrest⟩

theorem Separated.split {before : List Cell} (h : Separated (before ++ c :: rest))
    (hc : c.available = true) : Separated (before ++ Cell.split overhead granule size c rest) := by
  unfold Separated at h ⊢
  rw [List.isChain_append] at h ⊢
  obtain ⟨hbefore, hrest, -⟩ := h
  refine ⟨hbefore, ?_, ?_⟩
  · rw [List.isChain_cons] at hrest
    obtain ⟨hnext, hrest⟩ := hrest
    unfold Cell.split
    split
    · refine List.isChain_cons.mpr ⟨fun _ _ hboth ↦ Bool.false_ne_true hboth.1, ?_⟩
      refine List.isChain_cons.mpr ⟨fun d hd hboth ↦ hnext d hd ⟨hc, hboth.2⟩, hrest⟩
    · exact List.isChain_cons.mpr ⟨fun _ _ hboth ↦ Bool.false_ne_true hboth.1, hrest⟩
  · intro x _ y hy hboth
    unfold Cell.split at hy
    split at hy
    all_goals
      rw [List.head?_cons, Option.mem_some_iff] at hy
      rw [← hy] at hboth
      exact Bool.false_ne_true hboth.2

/-! ## Freeing a cell -/

variable {p : ℕ}

/-- The cell that is released and its neighbours. -/
theorem release_eq (hoverhead : 0 < overhead) (h : (p, k) ∈ taken overhead b cells) :
    ∃ before c rest, cells = before ++ c :: rest ∧
      release overhead p b cells = before ++ ⟨c.size, true⟩ :: rest ∧
      p = b + span overhead before + overhead ∧ c.available = false ∧ k = c.size := by
  induction cells generalizing b with
  | nil => cases h
  | cons c rest ih =>
    unfold release
    split
    · rename_i hp
      refine ⟨[], c, rest, rfl, rfl, hp, ?_⟩
      rcases mem_taken_cons.mp h with ⟨hc, -, hk⟩ | hrest
      · exact ⟨hc, hk⟩
      · have := (within_of_mem_taken hrest).1
        omega
    · rename_i hp
      rcases mem_taken_cons.mp h with ⟨-, hq, -⟩ | hrest
      · exact absurd hq hp
      · obtain ⟨before, d, after, rfl, hrelease, rfl, hd, hk⟩ := ih hrest
        refine ⟨c :: before, d, after, rfl, by rw [hrelease, List.cons_append], ?_, hd, hk⟩
        rw [span_cons]
        omega

theorem span_merge (overhead : ℕ) (c d : Cell) (rest : List Cell) :
    span overhead (⟨c.size + (overhead + d.size), c.available⟩ :: rest) =
      span overhead (c :: d :: rest) := by
  simp only [span_cons]
  omega

theorem taken_merge {d : Cell} (hc : c.available = true) (hd : d.available = true) (b : ℕ)
    (rest : List Cell) :
    taken overhead b (⟨c.size + (overhead + d.size), c.available⟩ :: rest) =
      taken overhead b (c :: d :: rest) := by
  have haddress : b + overhead + (c.size + (overhead + d.size)) =
      b + overhead + c.size + overhead + d.size := by omega
  calc taken overhead b (⟨c.size + (overhead + d.size), c.available⟩ :: rest)
      = taken overhead (b + overhead + (c.size + (overhead + d.size))) rest := taken_cons_available hc
    _ = taken overhead (b + overhead + c.size + overhead + d.size) rest := by rw [haddress]
    _ = taken overhead b (c :: d :: rest) := by
      rw [taken_cons_available hc, taken_cons_available hd]

theorem span_coalesce (cells : List Cell) : span overhead (coalesce overhead cells) = span overhead cells := by
  fun_induction coalesce overhead cells with
  | case1 c d rest hboth ih => rw [ih, span_merge]
  | case2 c d rest hboth ih => rw [span_cons, ih, ← span_cons]
  | case3 => rfl

/-- Merging free cells leaves the cells in use where they are. -/
theorem taken_coalesce (b : ℕ) (cells : List Cell) :
    taken overhead b (coalesce overhead cells) = taken overhead b cells := by
  fun_induction coalesce overhead cells generalizing b with
  | case1 c d rest hboth ih => rw [ih, taken_merge hboth.1 hboth.2]
  | case2 c d rest hboth ih =>
    cases hc : c.available with
    | true => rw [taken_cons_available hc, taken_cons_available hc, ih]
    | false => rw [taken_cons_used hc, taken_cons_used hc, ih]
  | case3 => rfl

theorem Sized.coalesce (h : Sized granule cells) (hoverhead : granule ∣ overhead) :
    Sized granule (Cell.coalesce overhead cells) := by
  fun_induction Cell.coalesce overhead cells with
  | case1 c d rest hboth ih =>
    obtain ⟨⟨hcpos, hc⟩, hrest⟩ := List.forall_mem_cons.mp h
    obtain ⟨⟨-, hd⟩, hrest⟩ := List.forall_mem_cons.mp hrest
    refine ih (List.forall_mem_cons.mpr ⟨⟨?_, ?_⟩, hrest⟩)
    · dsimp only
      omega
    · exact Nat.dvd_add hc (Nat.dvd_add hoverhead hd)
  | case2 c d rest hboth ih =>
    obtain ⟨hc, hrest⟩ := List.forall_mem_cons.mp h
    exact List.forall_mem_cons.mpr ⟨hc, ih hrest⟩
  | case3 => exact h

/-- Whatever was free before, no two neighbours are free afterwards. -/
theorem separated_coalesce (cells : List Cell) : Separated (coalesce overhead cells) ∧
    ((coalesce overhead cells).head?.map Cell.available = cells.head?.map Cell.available) := by
  fun_induction coalesce overhead cells with
  | case1 c d rest hboth ih => exact ih
  | case2 c d rest hboth ih =>
    refine ⟨List.isChain_cons.mpr ⟨fun e he ↦ ?_, ih.1⟩, rfl⟩
    have hhead := ih.2
    rw [he, List.head?_cons, Option.map_some, Option.map_some, Option.some.injEq] at hhead
    rwa [hhead]
  | case3 cells hshort =>
    refine ⟨?_, rfl⟩
    cases cells with
    | nil => exact List.isChain_nil
    | cons c rest =>
      cases rest with
      | nil => exact List.isChain_singleton c
      | cons d rest => exact absurd rfl (hshort c d rest)

/-- When nothing is in use, there is a single cell. -/
theorem eq_singleton_of_taken_eq_nil (h : taken overhead b cells = []) (hseparated : Separated cells)
    (hne : cells ≠ []) : ∃ c, cells = [c] ∧ c.available = true := by
  have hfree : ∀ b c rest, taken overhead b (c :: rest) = [] →
      c.available = true ∧ taken overhead (b + overhead + c.size) rest = [] := by
    intro b c rest hnone
    cases hc : c.available with
    | true => exact ⟨rfl, by rwa [taken_cons_available hc] at hnone⟩
    | false =>
      rw [taken_cons_used hc] at hnone
      cases hnone
  cases cells with
  | nil => exact absurd rfl hne
  | cons c rest =>
    obtain ⟨hc, hrest⟩ := hfree b c rest h
    cases rest with
    | nil => exact ⟨c, rfl, hc⟩
    | cons d rest =>
      have hd := (hfree _ d rest hrest).1
      exact absurd ⟨hc, hd⟩ (List.isChain_cons_cons.mp hseparated).1

/-! ## The region -/

variable {total : ℕ}

/-- The cells fill the region, and no two neighbours are free. -/
structure Region (overhead granule total : ℕ) (cells : List Cell) : Prop where
  span_eq : span overhead cells = total
  sized : Sized granule cells
  separated : Separated cells

theorem Region.single (hfit : overhead < total) (hoverhead : granule ∣ overhead) (htotal : granule ∣ total) :
    Region overhead granule total [⟨total - overhead, true⟩] where
  span_eq := by
    rw [span_cons]
    exact Nat.add_sub_of_le hfit.le
  sized := List.forall_mem_singleton.mpr ⟨Nat.sub_pos_of_lt hfit, Nat.dvd_sub htotal hoverhead⟩
  separated := List.isChain_singleton _

theorem Region.ne_nil (h : Region overhead granule total cells) (htotal : 0 < total) : cells ≠ [] := by
  rintro rfl
  exact htotal.ne h.span_eq

/-- With nothing in use the region is the single cell it began with. -/
theorem Region.eq_single (h : Region overhead granule total cells) (htotal : 0 < total)
    (hnone : taken overhead b cells = []) : cells = [⟨total - overhead, true⟩] := by
  obtain ⟨c, rfl, hc⟩ := eq_singleton_of_taken_eq_nil hnone h.separated (h.ne_nil htotal)
  have hspan := h.span_eq
  rw [span_cons, span, Nat.add_zero] at hspan
  obtain ⟨size, available⟩ := c
  dsimp only at hspan hc
  rw [hc, ← hspan, Nat.add_sub_cancel_left]

/-- A taken cell is new and large enough; the others stay as they are. -/
theorem Region.allocate (h : Region overhead granule total cells) (hoverhead : 0 < overhead)
    (hgranule : 0 < granule) (hdvd : granule ∣ overhead) (hpos : 0 < size) (hsize : granule ∣ size)
    (hfound : Cell.allocate overhead granule size b cells = some (a, next)) :
    Region overhead granule total next ∧ (∀ k, (a + overhead, k) ∉ taken overhead b cells) ∧
      ∃ n, size ≤ n ∧ ∀ q k, (q, k) ∈ taken overhead b next ↔
        q = a + overhead ∧ k = n ∨ (q, k) ∈ taken overhead b cells := by
  obtain ⟨before, c, rest, rfl, rfl, rfl, hc, hfit, -⟩ := allocate_eq_some hfound
  obtain ⟨hbefore, hrest⟩ := List.forall_mem_append.mp h.sized
  have hcells : ∀ q k, (q, k) ∈ taken overhead b (before ++ c :: rest) ↔
      (q, k) ∈ taken overhead b before ∨
        (q, k) ∈ taken overhead (b + span overhead before + overhead + c.size) rest := by
    intro q k
    rw [taken_append, taken_cons_available hc, List.mem_append]
  refine ⟨⟨?_, ?_, h.separated.split hc⟩, ?_, ?_⟩
  · rw [span_append, span_split, ← span_append]
    exact h.span_eq
  · exact List.forall_mem_append.mpr ⟨hbefore, Sized.split hrest hgranule hdvd hpos hsize⟩
  · intro k hold
    rcases (hcells _ k).mp hold with hold | hold
    · have := (within_of_mem_taken hold).2
      omega
    · have := (within_of_mem_taken hold).1
      omega
  · obtain ⟨n, hn, -, hmem⟩ := mem_taken_split overhead granule hfit (b + span overhead before) rest
    refine ⟨n, hn, fun q k ↦ ?_⟩
    rw [hcells, taken_append, List.mem_append, hmem]
    exact or_left_comm

/-- A released cell is no longer in use; the others stay as they are. -/
theorem Region.release (h : Region overhead granule total cells) (hoverhead : 0 < overhead)
    (hdvd : granule ∣ overhead) {p k : ℕ} (hp : (p, k) ∈ taken overhead b cells) :
    Region overhead granule total (Cell.coalesce overhead (Cell.release overhead p b cells)) ∧
      ∀ q n, (q, n) ∈ taken overhead b (Cell.coalesce overhead (Cell.release overhead p b cells)) ↔
        (q, n) ∈ taken overhead b cells ∧ q ≠ p := by
  obtain ⟨before, c, rest, rfl, hrelease, rfl, hc, -⟩ := release_eq hoverhead hp
  obtain ⟨hbefore, hrest⟩ := List.forall_mem_append.mp h.sized
  obtain ⟨hcsize, hrest⟩ := List.forall_mem_cons.mp hrest
  rw [hrelease]
  refine ⟨⟨?_, ?_, (separated_coalesce _).1⟩, fun q n ↦ ?_⟩
  · rw [span_coalesce, span_append, span_cons, ← h.span_eq, span_append, span_cons]
  · exact Sized.coalesce (List.forall_mem_append.mpr ⟨hbefore, List.forall_mem_cons.mpr ⟨hcsize, hrest⟩⟩)
      hdvd
  · rw [taken_coalesce, taken_append, taken_append, taken_cons_available rfl, taken_cons_used hc,
      List.mem_append, List.mem_append, List.mem_cons, Prod.mk.injEq]
    constructor
    · rintro (hmem | hmem)
      · have := within_of_mem_taken hmem
        exact ⟨Or.inl hmem, by omega⟩
      · have := within_of_mem_taken hmem
        exact ⟨Or.inr (Or.inr hmem), by omega⟩
    · rintro ⟨hmem | ⟨hsame, -⟩ | hmem, hne⟩
      · exact Or.inl hmem
      · exact absurd hsame hne
      · exact Or.inr hmem

end Cell

end JordyOS.Machine
