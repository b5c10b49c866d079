import JordyOS.Machine.Scan
import Mathlib.Algebra.Order.Ring.Int
import Mathlib.Data.Int.Notation
import Mathlib.Logic.Function.Basic

/-!
# Drawing on a screen

A picture gives every point its colour.  A program draws point by point, in the order of its loops, and an access
beside the screen is a fault.  As long as the points lie on the screen, a filled region is described by its points
alone, and so is a region that is moved, when no point is read after it was written.
-/

namespace JordyOS.Machine

abbrev Point := ℤ × ℤ

structure Screen where
  width : ℤ
  height : ℤ
  deriving Repr

/-! ## Points -/

/-- The numbers from `start` on. -/
def span (start length : ℤ) : List ℤ := (List.range length.toNat).map fun n : ℕ ↦ start + (n : ℤ)

/-- The points of a rectangle, row by row. -/
def block (x y w h : ℤ) : List Point := (span y h).flatMap fun py ↦ (span x w).map fun px ↦ (px, py)

variable {x y w h start length n : ℤ} {p : Point}

@[simp]
theorem mem_span : n ∈ span start length ↔ start ≤ n ∧ n < start + length := by
  unfold span
  rw [List.mem_map]
  constructor
  · rintro ⟨m, hm, rfl⟩
    have hlt := List.mem_range.mp hm
    omega
  · rintro ⟨hstart, hend⟩
    have hlt : (n - start).toNat < length.toNat := by omega
    exact ⟨(n - start).toNat, List.mem_range.mpr hlt, by omega⟩

@[simp]
theorem mem_block : p ∈ block x y w h ↔ (x ≤ p.1 ∧ p.1 < x + w) ∧ y ≤ p.2 ∧ p.2 < y + h := by
  obtain ⟨px, py⟩ := p
  simp only [block, List.mem_flatMap, List.mem_map, mem_span, Prod.mk.injEq]
  constructor
  · rintro ⟨qy, hy, qx, hx, rfl, rfl⟩
    exact ⟨hx, hy⟩
  · rintro ⟨hx, hy⟩
    exact ⟨py, hy, px, hx, rfl, rfl⟩

theorem pairwise_span (start length : ℤ) : (span start length).Pairwise (· < ·) := by
  unfold span
  refine List.pairwise_map.mpr (List.pairwise_lt_range.imp ?_)
  intro a b hlt
  omega

/-- The rows of a rectangle are met from the top. -/
theorem pairwise_block (x y w h : ℤ) : (block x y w h).Pairwise fun a b ↦ a.2 ≤ b.2 := by
  unfold block
  refine List.pairwise_flatMap.mpr ⟨?_, ?_⟩
  · intro py _
    exact List.pairwise_map.mpr (List.pairwise_of_forall fun _ _ ↦ le_refl py)
  · refine (pairwise_span y h).imp ?_
    intro a b hlt p hp q hq
    obtain ⟨px, -, rfl⟩ := List.mem_map.mp hp
    obtain ⟨qx, -, rfl⟩ := List.mem_map.mp hq
    exact hlt.le

/-! ## Drawing -/

namespace Screen

def Inside (s : Screen) (p : Point) : Prop := (0 ≤ p.1 ∧ p.1 < s.width) ∧ 0 ≤ p.2 ∧ p.2 < s.height

instance (s : Screen) (p : Point) : Decidable (s.Inside p) := inferInstanceAs (Decidable (_ ∧ _))

variable {κ : Type}

/-- `pixels[y][x] = colour`. -/
def plot (s : Screen) (p : Point) (colour : κ) (pixels : Point → κ) : Scan (Point → κ) :=
  if s.Inside p then .ok (Function.update pixels p colour) else fault

/-- `pixels[y][x]`. -/
def fetch (s : Screen) (p : Point) (pixels : Point → κ) : Scan κ :=
  if s.Inside p then .ok (pixels p) else fault

/-- A loop over the points that writes each of them. -/
def fill (s : Screen) (colour : Point → κ) (points : List Point) (pixels : Point → κ) : Scan (Point → κ) :=
  points.foldlM (fun pixels p ↦ s.plot p (colour p) pixels) pixels

/-- A loop over the points that writes to each of them what another one holds. -/
def move (s : Screen) (source : Point → Point) (points : List Point) (pixels : Point → κ) : Scan (Point → κ) :=
  points.foldlM (fun pixels p ↦ do s.plot p (← s.fetch (source p) pixels) pixels) pixels

variable {s : Screen} {colour : Point → κ} {source : Point → Point} {points : List Point}

theorem fill_eq (hinside : ∀ p ∈ points, s.Inside p) (pixels : Point → κ) :
    s.fill colour points pixels = .ok fun p ↦ if p ∈ points then colour p else pixels p := by
  unfold fill
  induction points generalizing pixels with
  | nil => simp only [List.not_mem_nil, if_false, List.foldlM_nil]; rfl
  | cons q points ih =>
    rw [List.foldlM_cons, plot, if_pos (hinside q List.mem_cons_self), ok_bind,
      ih (fun p hp ↦ hinside p (List.mem_cons_of_mem q hp))]
    congr 1
    funext p
    by_cases hlater : p ∈ points
    · rw [if_pos hlater, if_pos (List.mem_cons_of_mem q hlater)]
    rw [if_neg hlater, Function.update_apply]
    by_cases hp : p = q
    · rw [if_pos hp, if_pos (hp ▸ List.mem_cons_self), hp]
    · rw [if_neg hp, if_neg fun hmem ↦ (List.mem_cons.mp hmem).elim hp hlater]

/-- No point is read after it was written, so each receives what its source held at the start. -/
theorem move_eq (hinside : ∀ p ∈ points, s.Inside p) (hsource : ∀ p ∈ points, s.Inside (source p))
    (horder : points.Pairwise fun a b ↦ source b ≠ a) (pixels : Point → κ) :
    s.move source points pixels = .ok fun p ↦ if p ∈ points then pixels (source p) else pixels p := by
  unfold move
  induction points generalizing pixels with
  | nil => simp only [List.not_mem_nil, if_false, List.foldlM_nil]; rfl
  | cons q points ih =>
    obtain ⟨hfirst, hrest⟩ := List.pairwise_cons.mp horder
    rw [List.foldlM_cons, fetch, if_pos (hsource q List.mem_cons_self), ok_bind, plot,
      if_pos (hinside q List.mem_cons_self), ok_bind,
      ih (fun p hp ↦ hinside p (List.mem_cons_of_mem q hp))
        (fun p hp ↦ hsource p (List.mem_cons_of_mem q hp)) hrest]
    congr 1
    funext p
    by_cases hlater : p ∈ points
    · rw [if_pos hlater, if_pos (List.mem_cons_of_mem q hlater), Function.update_of_ne (hfirst p hlater)]
    rw [if_neg hlater, Function.update_apply]
    by_cases hp : p = q
    · rw [if_pos hp, if_pos (hp ▸ List.mem_cons_self), hp]
    · rw [if_neg hp, if_neg fun hmem ↦ (List.mem_cons.mp hmem).elim hp hlater]

end Screen

end JordyOS.Machine
