import JordyOS.Machine.Paging
import JordyOS.Machine.Processor

/-!
# Address spaces

What code in ring 3 does to memory through page tables that lie in the same memory.  Where the pages that it may
write hold neither a table nor each other, it sees a flat memory of its own, and nothing else changes.  The
accessed and dirty bits are left out.
-/

namespace JordyOS.Machine.Paging

/-! ## Code -/

/-- An access of one byte. -/
inductive Request
  | fetch (a : ℕ)
  | load (a : ℕ)
  | store (a : ℕ) (value : UInt8)

/-- Code that goes on with what each access gives it. -/
structure Code (σ : Type) where
  next : σ → Request
  resume : σ → UInt8 → σ

variable {σ μ ν : Type}

/-- A number of accesses to a memory of any kind.  An access that fails stops the code where it is. -/
def Code.run (p : Code σ) (perform : μ → Request → Option (UInt8 × μ)) : ℕ → σ × μ → σ × μ
  | 0, s => s
  | n + 1, s =>
    match perform s.2 (p.next s.1) with
    | some (value, m) => p.run perform n (p.resume s.1 value, m)
    | none => s

/-- A relation between two kinds of memory that every access keeps is kept by all code. -/
theorem Code.run_related {R : μ → ν → Prop} {perform : μ → Request → Option (UInt8 × μ)}
    {perform' : ν → Request → Option (UInt8 × ν)}
    (h : ∀ m n request, R m n →
      Option.Rel (fun x y ↦ x.1 = y.1 ∧ R x.2 y.2) (perform m request) (perform' n request))
    (p : Code σ) (rounds : ℕ) (s : σ) {m : μ} {n : ν} (hrelated : R m n) :
    (p.run perform rounds (s, m)).1 = (p.run perform' rounds (s, n)).1 ∧
      R (p.run perform rounds (s, m)).2 (p.run perform' rounds (s, n)).2 := by
  induction rounds generalizing s m n with
  | zero => exact ⟨rfl, hrelated⟩
  | succ rounds ih =>
    have haccess := h m n (p.next s) hrelated
    unfold run
    dsimp only
    generalize perform m (p.next s) = x at haccess
    generalize perform' n (p.next s) = y at haccess
    cases haccess with
    | none => exact ⟨rfl, hrelated⟩
    | @some x y hxy =>
      obtain ⟨value, m⟩ := x
      obtain ⟨value', n⟩ := y
      obtain ⟨rfl, hnext⟩ := hxy
      exact ih (p.resume s value) hnext

/-! ## Through the tables -/

/-- The tables, as the memory management unit reads them. -/
def framesOf (m : Memory) : Frames := fun table i ↦ m.word (table + 8 * i)

/-- Where ring 3 gets with an address of a page; addresses have 48 bits. -/
def reach (m : Memory) (root page : ℕ) : Option Translation :=
  if page < 2 ^ 36 then (walk (framesOf m) root page).filter Translation.user else none

def access (root : ℕ) (m : Memory) : Request → Option (UInt8 × Memory)
  | .fetch a => (reach m root (a / 4096)).bind fun t ↦
    if t.executable then some (m (t.frame + a % 4096), m) else none
  | .load a => (reach m root (a / 4096)).map fun t ↦ (m (t.frame + a % 4096), m)
  | .store a value => (reach m root (a / 4096)).bind fun t ↦
    if t.writable then some (value, m.set (t.frame + a % 4096) value) else none

/-! ## Flat -/

structure Rights where
  writable : Bool
  executable : Bool
  deriving DecidableEq

/-- A memory with rights on its pages. -/
@[ext]
structure Space where
  rights : ℕ → Option Rights
  bytes : Memory

def Space.access (s : Space) : Request → Option (UInt8 × Space)
  | .fetch a => (s.rights (a / 4096)).bind fun r ↦ if r.executable then some (s.bytes a, s) else none
  | .load a => (s.rights (a / 4096)).map fun _ ↦ (s.bytes a, s)
  | .store a value => (s.rights (a / 4096)).bind fun r ↦
    if r.writable then some (value, { s with bytes := s.bytes.set a value }) else none

def Translation.rights (t : Translation) : Rights := ⟨t.writable, t.executable⟩

/-- What ring 3 sees of memory; zeros stand where it sees nothing. -/
def view (root : ℕ) (m : Memory) : Space where
  rights page := (reach m root page).map Translation.rights
  bytes a := (reach m root (a / 4096)).elim 0 fun t ↦ m (t.frame + a % 4096)

/-! ## Own pages -/

/-- Whatever the bytes in `own` are, the tables stay as they are; they lead ring 3 to distinct pages, and where
it may write to bytes in `own` only. -/
structure Closed (root : ℕ) (m : Memory) (own : ℕ → Prop) : Prop where
  fixed : ∀ n : Memory, (∀ a, ¬ own a → n a = m a) → ∀ page, reach n root page = reach m root page
  owned : ∀ page t, reach m root page = some t → t.writable = true → ∀ i < 4096, own (t.frame + i)
  apart : ∀ first second t u, reach m root first = some t → reach m root second = some u → first ≠ second →
    t.frame + 4096 ≤ u.frame ∨ u.frame + 4096 ≤ t.frame

variable {root : ℕ} {m n : Memory} {own : ℕ → Prop}

theorem rights_view (root : ℕ) (m : Memory) (page : ℕ) :
    (view root m).rights page = (reach m root page).map Translation.rights := rfl

theorem bytes_view (root : ℕ) (m : Memory) (a : ℕ) :
    (view root m).bytes a = (reach m root (a / 4096)).elim 0 fun t ↦ m (t.frame + a % 4096) := rfl

/-- Memory that differs from closed memory in its own bytes only is closed. -/
theorem Closed.congr (h : Closed root m own) (hsame : ∀ a, ¬ own a → n a = m a) : Closed root n own where
  fixed n' hn' page := (h.fixed n' (fun a ha ↦ (hn' a ha).trans (hsame a ha)) page).trans (h.fixed n hsame page).symm
  owned page t ht := h.owned page t (h.fixed n hsame page ▸ ht)
  apart first second t u ht hu := h.apart first second t u (h.fixed n hsame first ▸ ht) (h.fixed n hsame second ▸ hu)

/-- A store changes one byte of what ring 3 sees. -/
theorem Closed.view_set (h : Closed root m own) {a : ℕ} {t : Translation} (ht : reach m root (a / 4096) = some t)
    (hwritable : t.writable = true) (value : UInt8) :
    view root (m.set (t.frame + a % 4096) value) =
      { view root m with bytes := (view root m).bytes.set a value } := by
  have hown := h.owned _ t ht hwritable (a % 4096) (Nat.mod_lt a (by decide))
  have hreach := h.fixed (m.set (t.frame + a % 4096) value) fun b hb ↦
    Memory.set_of_ne m value fun heq ↦ hb (heq ▸ hown)
  apply Space.ext
  · funext page
    change (view root (m.set (t.frame + a % 4096) value)).rights page = (view root m).rights page
    rw [rights_view, rights_view, hreach]
  · funext b
    change (view root (m.set (t.frame + a % 4096) value)).bytes b =
      if b = a then value else (view root m).bytes b
    rw [bytes_view, bytes_view, hreach]
    cases hb : reach m root (b / 4096) with
    | none =>
      have hne : b ≠ a := by
        rintro rfl
        rw [hb] at ht
        cases ht
      rw [if_neg hne, Option.elim_none, Option.elim_none]
    | some u =>
      rw [Option.elim_some, Option.elim_some]
      unfold Memory.set
      by_cases hpage : b / 4096 = a / 4096
      · rw [hpage, ht] at hb
        cases hb
        congr 1
        exact propext (by omega)
      · have happart := h.apart _ _ u t hb ht hpage
        have hplaces : b % 4096 < 4096 ∧ a % 4096 < 4096 := ⟨Nat.mod_lt b (by decide), Nat.mod_lt a (by decide)⟩
        rw [if_neg (by omega), if_neg (by omega)]

/-- The flat memory behind closed memory. -/
def Shows (root : ℕ) (start : Memory) (own : ℕ → Prop) (m : Memory) (s : Space) : Prop :=
  s = view root m ∧ ∀ a, ¬ own a → m a = start a

/-- One access. -/
theorem Closed.access_shows {start : Memory} (h : Closed root start own) {s : Space}
    (hshows : Shows root start own m s) (request : Request) :
    Option.Rel (fun x y ↦ x.1 = y.1 ∧ Shows root start own x.2 y.2) (access root m request) (s.access request) := by
  obtain ⟨rfl, hsame⟩ := hshows
  have hclosed := h.congr hsame
  cases request with
  | fetch a =>
    rw [access, Space.access, rights_view, bytes_view]
    cases ht : reach m root (a / 4096) with
    | none => exact .none
    | some t =>
      rw [Option.map_some, Option.bind_some, Option.bind_some, Option.elim_some]
      have hright : t.rights.executable = t.executable := rfl
      rw [hright]
      by_cases hexecutable : t.executable = true
      · rw [if_pos hexecutable, if_pos hexecutable]
        exact .some ⟨rfl, rfl, hsame⟩
      · rw [if_neg hexecutable, if_neg hexecutable]
        exact .none
  | load a =>
    rw [access, Space.access, rights_view, bytes_view]
    cases ht : reach m root (a / 4096) with
    | none => exact .none
    | some t => exact .some ⟨rfl, rfl, hsame⟩
  | store a value =>
    rw [access, Space.access, rights_view]
    cases ht : reach m root (a / 4096) with
    | none => exact .none
    | some t =>
      rw [Option.map_some, Option.bind_some, Option.bind_some]
      have hright : t.rights.writable = t.writable := rfl
      rw [hright]
      by_cases hwritable : t.writable = true
      · rw [if_pos hwritable, if_pos hwritable]
        have hown := hclosed.owned _ t ht hwritable (a % 4096) (Nat.mod_lt a (by decide))
        refine .some ⟨rfl, (hclosed.view_set ht hwritable value).symm, fun b hb ↦ ?_⟩
        have hne : b ≠ t.frame + a % 4096 := fun heq ↦ hb (heq ▸ hown)
        exact (Memory.set_of_ne m value hne).trans (hsame b hb)
      · rw [if_neg hwritable, if_neg hwritable]
        exact .none

/-- All code runs through the tables as on its flat memory, and changes bytes in `own` only. -/
theorem Closed.run (h : Closed root m own) (p : Code σ) (rounds : ℕ) (s : σ) :
    (p.run (access root) rounds (s, m)).1 = (p.run Space.access rounds (s, view root m)).1 ∧
      view root (p.run (access root) rounds (s, m)).2 = (p.run Space.access rounds (s, view root m)).2 ∧
      ∀ a, ¬ own a → (p.run (access root) rounds (s, m)).2 a = m a := by
  obtain ⟨hstate, hview, hsame⟩ := p.run_related (R := Shows root m own)
    (fun _ _ request hshows ↦ h.access_shows hshows request) rounds s ⟨rfl, fun _ _ ↦ rfl⟩
  exact ⟨hstate, hview.symm, hsame⟩

/-! ## Tables in memory -/

theorem frame_aligned (entry : UInt64) : frame entry % 4096 = 0 := by
  unfold frame
  rw [Nat.shiftLeft_eq]
  exact Nat.mul_mod_left _ _

/-- A walk reads tables at multiples of 4096 only. -/
theorem walkFrom_congr {f g : Frames} (h : ∀ table, table % 4096 = 0 → ∀ i < 512, f table i = g table i) (page : ℕ) :
    ∀ level table, table % 4096 = 0 → walkFrom f page level table = walkFrom g page level table := by
  intro level
  induction level with
  | zero =>
    intro table htable
    have hentry := h table htable (index page 0) (Nat.mod_lt _ (by decide))
    rw [walkFrom, walkFrom, hentry]
  | succ level ih =>
    intro table htable
    have hentry := h table htable (index page (level + 1)) (Nat.mod_lt _ (by decide))
    rw [walkFrom, walkFrom, hentry, ih _ (frame_aligned _)]

end JordyOS.Machine.Paging
