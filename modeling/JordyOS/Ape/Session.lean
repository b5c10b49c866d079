import JordyOS.Ape.Allocator

/-!
# Programs on the heap

A program calls the functions of the heap in any order and writes into the blocks it holds.  It gives
back only what it was given.
-/

namespace JordyOS.Ape

open Machine

/-- A step of the program. -/
inductive Event
  | reset
  | malloc (size : UInt64)
  | calloc (count size : UInt64)
  | realloc (ptr : ℕ) (size : UInt64)
  | free (ptr : ℕ)
  | write (ptr i : ℕ) (byte : UInt8)

/-- The heap, and the size that was asked for at every pointer that was not given back. -/
structure Session where
  heap : Heap
  live : ℕ → Option ℕ

/-- No call was made yet, and nothing is known about the memory. -/
def Session.start (memory : Memory) : Session := ⟨⟨memory, 0⟩, fun _ ↦ none⟩

/-- `free` and `realloc` get null or a pointer in use, and writes stay in a block. -/
def Session.Allows (s : Session) : Event → Prop
  | .realloc ptr _ | .free ptr => ptr = 0 ∨ (s.live ptr).isSome
  | .write ptr i _ => ∃ size, s.live ptr = some size ∧ i < size
  | _ => True

/-- A new pointer is in use from now on. -/
def grant (live : ℕ → Option ℕ) (p size : ℕ) : ℕ → Option ℕ :=
  if p = 0 then live else Function.update live p (some size)

/-- The result of the call and the session after it. -/
def Session.step (arena : Arena) (s : Session) : Event → Option (ℕ × Session)
  | .reset => some (0, ⟨apeHeapReset arena s.heap, fun _ ↦ none⟩)
  | .malloc size =>
    (malloc arena s.heap size).map fun (h, p) ↦ (p, ⟨h, grant s.live p size.toNat⟩)
  | .calloc count size =>
    (calloc arena s.heap count size).map fun (h, p) ↦
      (p, ⟨h, grant s.live p (count.toNat * size.toNat)⟩)
  | .realloc ptr size =>
    (realloc arena s.heap ptr size).map fun (h, p) ↦
      (p, ⟨h, if p = 0 ∧ size ≠ 0 then s.live
        else grant (Function.update s.live ptr none) p size.toNat⟩)
  | .free ptr => (free s.heap ptr).map fun h ↦ (0, ⟨h, Function.update s.live ptr none⟩)
  | .write ptr i byte =>
    some (0, { s with heap := { s.heap with memory := s.heap.memory.set (ptr + i) byte } })

def Session.run (arena : Arena) (s : Session) : List Event → Option Session
  | [] => some s
  | event :: rest =>
    match s.step arena event with
    | none => none
    | some (_, s) => Session.run arena s rest

/-- Every step is allowed where it is taken. -/
def Session.Permits (arena : Arena) (s : Session) : List Event → Prop
  | [] => True
  | event :: rest => s.Allows event ∧ ∀ p next, s.step arena event = some (p, next) →
    Session.Permits arena next rest

/-! ## What holds between the calls -/

/-- The blocks in use are the blocks that were handed out, each with room for what was asked for. -/
structure Sound (arena : Arena) (s : Session) (cells : List Cell) : Prop where
  tiled : Tiled arena s.heap cells
  owned : ∀ p size, s.live p = some size →
    ∃ n, (p, n) ∈ Cell.taken headerSize arena.base cells ∧ size ≤ n
  live : ∀ p n, (p, n) ∈ Cell.taken headerSize arena.base cells → (s.live p).isSome

/-- The blocks in use, apart from `ptr`, keep their place and their contents. -/
def Keeps (arena : Arena) (s : Session) (cells : List Cell) (s' : Session) (cells' : List Cell)
    (ptr : ℕ) : Prop :=
  ∀ q n, (q, n) ∈ Cell.taken headerSize arena.base cells → q ≠ ptr →
    (q, n) ∈ Cell.taken headerSize arena.base cells' ∧
      ∀ i < n, s'.heap.memory (q + i) = s.heap.memory (q + i)

/-- A request is refused only when no free block is large enough; what is granted was not in use. -/
def Granted (s : Session) (cells : List Cell) (size p : ℕ) (s' : Session) : Prop :=
  p = 0 ∧ (∀ c ∈ cells, c.available = true → c.size < size) ∧ s'.live = s.live ∨
    p ≠ 0 ∧ s.live p = none ∧ s'.live = Function.update s.live p (some size)

/-- What a step does: `p` is its result. -/
def Effect (arena : Arena) (s : Session) (cells : List Cell) (p : ℕ) (s' : Session)
    (cells' : List Cell) : Event → Prop
  | .reset => cells' = initialCells ∧ ∀ q, s'.live q = none
  | .malloc size => Granted s cells size.toNat p s' ∧ Keeps arena s cells s' cells' 0
  | .calloc count size =>
    (2 ^ 64 ≤ count.toNat * size.toNat → p = 0 ∧ s' = s) ∧
      (count.toNat * size.toNat < 2 ^ 64 → Granted s cells (count.toNat * size.toNat) p s' ∧
        (p ≠ 0 → ∀ i < count.toNat * size.toNat, s'.heap.memory (p + i) = 0)) ∧
      Keeps arena s cells s' cells' 0
  | .realloc ptr size =>
    (size = 0 → p = 0 ∧ s'.live = Function.update s.live ptr none) ∧
      (size ≠ 0 → ptr = 0 → Granted s cells size.toNat p s') ∧
      (size ≠ 0 → ptr ≠ 0 → ∃ n, (ptr, n) ∈ Cell.taken headerSize arena.base cells ∧
        (p = 0 ∧ s' = s ∧ (∀ c ∈ cells, c.available = true → c.size < size.toNat) ∨
          p ≠ 0 ∧ (p = ptr ∨ s.live p = none) ∧
            s'.live = Function.update (Function.update s.live ptr none) p (some size.toNat) ∧
            ∀ i < min n size.toNat, s'.heap.memory (p + i) = s.heap.memory (ptr + i))) ∧
      Keeps arena s cells s' cells' ptr
  | .free ptr => s'.live = Function.update s.live ptr none ∧ Keeps arena s cells s' cells' ptr
  | .write ptr i byte => s'.live = s.live ∧ s'.heap.memory (ptr + i) = byte ∧
    Keeps arena s cells s' cells' ptr

variable {arena : Arena} {s : Session} {cells : List Cell}

theorem sound_start (arena : Arena) (memory : Memory) :
    Sound arena (Session.start memory) initialCells where
  tiled := ⟨Or.inr ⟨rfl, rfl⟩, region_initialCells⟩
  owned := nofun
  live := nofun

theorem Sound.aligned (h : Sound arena s cells) {p size : ℕ} (hp : s.live p = some size) : 16 ∣ p := by
  obtain ⟨n, hn, -⟩ := h.owned p size hp
  exact Cell.dvd_of_mem_taken arena.aligned (by decide) h.tiled.region.sized hn

theorem apart_of_ne {p n q k : ℕ} (hp : (p, n) ∈ Cell.taken headerSize arena.base cells)
    (hq : (q, k) ∈ Cell.taken headerSize arena.base cells) (hne : p ≠ q) :
    p + n ≤ q ∨ q + k ≤ p := by
  rcases Cell.apart_of_mem_taken hp hq with ⟨hsame, -⟩ | hbefore | hafter
  · exact absurd hsame hne
  · exact Or.inl (by omega)
  · exact Or.inr (by omega)

/-- Once everything was given back, the heap is as it was at first. -/
theorem Sound.reclaimed (h : Sound arena s cells) (hnone : ∀ p, s.live p = none) :
    cells = initialCells := by
  refine h.tiled.region.eq_single (b := arena.base) (by decide) ?_
  refine List.eq_nil_iff_forall_not_mem.mpr fun ⟨p, n⟩ hp ↦ ?_
  have hlive := h.live p n hp
  rw [hnone p] at hlive
  cases hlive

/-- Null is not in use. -/
theorem Sound.live_zero (h : Sound arena s cells) : s.live 0 = none := by
  cases hzero : s.live 0 with
  | none => rfl
  | some size =>
    obtain ⟨n, hn, -⟩ := h.owned 0 size hzero
    have hwithin := (Cell.within_of_mem_taken hn).1
    have hpos := arena.pos
    omega

/-! ## Steps -/

/-- A request that was answered. -/
theorem Sound.placed (hs : Sound arena s cells) {size p : ℕ} {h' : Heap} {next : List Cell}
    (hplaced : Placed arena s.heap cells size h' p next) :
    Sound arena ⟨h', grant s.live p size⟩ next ∧ Granted s cells size p ⟨h', grant s.live p size⟩ ∧
      Keeps arena s cells ⟨h', grant s.live p size⟩ next 0 := by
  by_cases hp : p = 0
  · obtain ⟨rfl, -, hsmall⟩ := hplaced.null hp
    have hgrant : grant s.live p size = s.live := if_pos hp
    rw [hgrant]
    exact ⟨⟨hplaced.tiled, hs.owned, hs.live⟩, Or.inl ⟨hp, hsmall, rfl⟩,
      fun q n hq _ ↦ ⟨hq, hplaced.kept.contents q n hq⟩⟩
  · obtain ⟨hfresh, n, hn, htaken⟩ := hplaced.fresh hp
    have hgrant : grant s.live p size = Function.update s.live p (some size) := if_neg hp
    have hdead : s.live p = none := by
      cases hlive : s.live p with
      | none => rfl
      | some old =>
        obtain ⟨k, hk, -⟩ := hs.owned p old hlive
        exact absurd hk (hfresh k)
    rw [hgrant]
    refine ⟨⟨hplaced.tiled, ?_, ?_⟩, Or.inr ⟨hp, hdead, rfl⟩, ?_⟩
    · intro q asked hq
      by_cases hqp : q = p
      · subst hqp
        have hsize : size = asked := Option.some.inj ((Function.update_self q _ s.live).symm.trans hq)
        exact ⟨n, (htaken q n).mpr (Or.inl ⟨rfl, rfl⟩), hsize ▸ hn⟩
      · obtain ⟨k, hk, hfits⟩ := hs.owned q asked ((Function.update_of_ne hqp _ s.live).symm.trans hq)
        exact ⟨k, (htaken q k).mpr (Or.inr hk), hfits⟩
    · intro q k hq
      change (Function.update s.live p (some size) q).isSome
      rcases (htaken q k).mp hq with ⟨rfl, -⟩ | hold
      · rw [Function.update_self, Option.isSome_some]
      · have hne : q ≠ p := by
          rintro rfl
          exact hfresh k hold
        rw [Function.update_of_ne hne]
        exact hs.live q k hold
    · exact fun q k hq _ ↦ ⟨(htaken q k).mpr (Or.inr hq), hplaced.kept.contents q k hq⟩

/-- A pointer was given back. -/
theorem Sound.released (hs : Sound arena s cells) {ptr : ℕ} (hptr : ptr = 0 ∨ (s.live ptr).isSome) :
    ∃ h' next, free s.heap ptr = some h' ∧
      Sound arena ⟨h', Function.update s.live ptr none⟩ next ∧
      Keeps arena s cells ⟨h', Function.update s.live ptr none⟩ next ptr := by
  by_cases hzero : ptr = 0
  · subst hzero
    have hsame : Function.update s.live 0 none = s.live := by
      rw [← hs.live_zero, Function.update_eq_self]
    rw [hsame]
    exact ⟨s.heap, cells, if_pos rfl, hs, fun q n hq _ ↦ ⟨hq, fun _ _ ↦ rfl⟩⟩
  · obtain ⟨size, hsize⟩ := Option.isSome_iff_exists.mp (hptr.resolve_left hzero)
    obtain ⟨n, hn, -⟩ := hs.owned ptr size hsize
    obtain ⟨h', next, hfree, htiled, hkept, htaken⟩ := free_spec hs.tiled hn
    refine ⟨h', next, hfree, ⟨htiled, ?_, ?_⟩, ?_⟩
    · intro q asked hq
      have hne : q ≠ ptr := by
        rintro rfl
        change Function.update s.live q none q = some asked at hq
        rw [Function.update_self] at hq
        cases hq
      obtain ⟨k, hk, hfits⟩ := hs.owned q asked ((Function.update_of_ne hne _ s.live).symm.trans hq)
      exact ⟨k, (htaken q k).mpr ⟨hk, hne⟩, hfits⟩
    · intro q k hq
      obtain ⟨hold, hne⟩ := (htaken q k).mp hq
      change (Function.update s.live ptr none q).isSome
      rw [Function.update_of_ne hne]
      exact hs.live q k hold
    · intro q k hq hne
      have hleft := (htaken q k).mpr ⟨hq, hne⟩
      exact ⟨hleft, hkept.contents q k hleft⟩

/-- The memory differs in the block of a pointer in use. -/
theorem Sound.written (hs : Sound arena s cells) {ptr n : ℕ} {m : Memory}
    (hptr : (ptr, n) ∈ Cell.taken headerSize arena.base cells)
    (hsame : ∀ i, i < ptr ∨ ptr + n ≤ i → m i = s.heap.memory i) :
    Sound arena { s with heap := { s.heap with memory := m } } cells ∧
      Keeps arena s cells { s with heap := { s.heap with memory := m } } cells ptr := by
  refine ⟨⟨hs.tiled.of_contents hptr hsame, hs.owned, hs.live⟩, fun q k hq hne ↦ ⟨hq, fun i hi ↦ ?_⟩⟩
  refine hsame (q + i) ?_
  rcases apart_of_ne hq hptr hne with hbefore | hafter
  · omega
  · omega

/-- The test of `calloc` is for overflow. -/
theorem calloc_refuses_iff (count size : UInt64) :
    count ≠ 0 ∧ size > 0xffffffffffffffff / count ↔ 2 ^ 64 ≤ count.toNat * size.toNat := by
  have hmax : (0xffffffffffffffff : UInt64).toNat = 2 ^ 64 - 1 := rfl
  have hzero : count = 0 ↔ count.toNat = 0 := by
    rw [← UInt64.toNat_inj]
    rfl
  rw [gt_iff_lt, UInt64.lt_iff_toNat_lt, UInt64.toNat_div, hmax, ne_eq, hzero]
  constructor
  · rintro ⟨hcount, hlt⟩
    rw [Nat.div_lt_iff_lt_mul (Nat.pos_of_ne_zero hcount), Nat.mul_comm] at hlt
    omega
  · intro hle
    have hcount : count.toNat ≠ 0 := by
      intro hnone
      rw [hnone, Nat.zero_mul] at hle
      omega
    refine ⟨hcount, ?_⟩
    rw [Nat.div_lt_iff_lt_mul (Nat.pos_of_ne_zero hcount), Nat.mul_comm]
    omega

theorem Sound.calloc (hs : Sound arena s cells) (count size : UInt64) :
    ∃ p s' cells', s.step arena (.calloc count size) = some (p, s') ∧ Sound arena s' cells' ∧
      Effect arena s cells p s' cells' (.calloc count size) := by
  by_cases hrefuse : count ≠ 0 ∧ size > 0xffffffffffffffff / count
  · have hlarge := (calloc_refuses_iff count size).mp hrefuse
    refine ⟨0, s, cells, ?_, hs, fun _ ↦ ⟨rfl, rfl⟩, fun hsmall ↦ absurd hlarge hsmall.not_ge,
      fun q n hq _ ↦ ⟨hq, fun _ _ ↦ rfl⟩⟩
    simp only [Session.step, Ape.calloc, if_pos hrefuse, Option.map_some, grant, if_true]
  · have hsmall : count.toNat * size.toNat < 2 ^ 64 := by
      rw [← Nat.not_le, ← calloc_refuses_iff]
      exact hrefuse
    have hproduct : (count * size).toNat = count.toNat * size.toNat := by
      rw [UInt64.toNat_mul, Nat.mod_eq_of_lt hsmall]
    obtain ⟨h', p, next, hmalloc, hplaced⟩ := malloc_spec hs.tiled (count * size)
    rw [hproduct] at hplaced
    by_cases hp : p = 0
    · subst hp
      obtain ⟨hsound, hgranted, hkeeps⟩ := hs.placed hplaced
      refine ⟨0, _, next, ?_, hsound, fun hlarge ↦ absurd hlarge hsmall.not_ge,
        fun _ ↦ ⟨hgranted, fun hne ↦ absurd rfl hne⟩, hkeeps⟩
      simp only [Session.step, Ape.calloc, if_neg hrefuse, hmalloc, if_true, Option.map_some]
    · have hfill := hplaced.fill (m := h'.memory.copy p Memory.zero (count.toNat * size.toNat)) hp ?_
      · obtain ⟨hsound, hgranted, hkeeps⟩ := hs.placed hfill
        refine ⟨p, _, next, ?_, hsound, fun hlarge ↦ absurd hlarge hsmall.not_ge,
          fun _ ↦ ⟨hgranted, fun _ i hi ↦ Memory.copy_inside _ _ hi⟩, hkeeps⟩
        simp only [Session.step, Ape.calloc, if_neg hrefuse, hmalloc, if_neg hp, hproduct, Option.map_some]
      · intro i hi
        rcases hi with hbelow | habove
        · exact Memory.copy_below _ _ hbelow
        · exact Memory.copy_above _ _ habove

/-- A block that is large enough stays where it is. -/
theorem Sound.resized (hs : Sound arena s cells) {ptr n : ℕ} {size : UInt64} (hzero : size ≠ 0)
    (hptr : (ptr, n) ∈ Cell.taken headerSize arena.base cells) (hnull : ptr ≠ 0)
    (hfits : size.toNat ≤ n) :
    ∃ p s' cells', s.step arena (.realloc ptr size) = some (p, s') ∧ Sound arena s' cells' ∧
      Effect arena s cells p s' cells' (.realloc ptr size) := by
  have hblock : blockSize s.heap.memory (ptr - headerSize) = n := (hs.tiled.path hptr).blockSize hptr
  have hgrant : grant (Function.update s.live ptr none) ptr size.toNat =
      Function.update (Function.update s.live ptr none) ptr (some size.toNat) := if_neg hnull
  refine ⟨ptr, ⟨s.heap, grant (Function.update s.live ptr none) ptr size.toNat⟩, cells, ?_,
    ⟨hs.tiled, ?_, ?_⟩, fun h ↦ absurd h hzero, fun _ h ↦ absurd h hnull, fun _ _ ↦ ⟨n, hptr, ?_⟩,
    fun q k hq _ ↦ ⟨hq, fun _ _ ↦ rfl⟩⟩
  · have hrealloc : Ape.realloc arena s.heap ptr size = some (s.heap, ptr) := by
      rw [Ape.realloc, if_neg hzero, if_neg hnull, if_pos (by rwa [hblock])]
    simp only [Session.step, hrealloc, Option.map_some, hnull, false_and, if_false]
  · intro q asked hq
    simp only [hgrant, Function.update_idem] at hq
    by_cases hqp : q = ptr
    · subst hqp
      rw [Function.update_self, Option.some.injEq] at hq
      exact ⟨n, hptr, hq ▸ hfits⟩
    · rw [Function.update_of_ne hqp] at hq
      exact hs.owned q asked hq
  · intro q k hq
    simp only [hgrant, Function.update_idem]
    by_cases hqp : q = ptr
    · rw [hqp, Function.update_self, Option.isSome_some]
    · rw [Function.update_of_ne hqp]
      exact hs.live q k hq
  · exact Or.inr ⟨hnull, Or.inl rfl, hgrant, fun _ _ ↦ rfl⟩

section Growth

variable {ptr n p : ℕ} {size : UInt64} {h' : Heap} {next : List Cell} (hs : Sound arena s cells) (hzero : size ≠ 0)
  (hptr : (ptr, n) ∈ Cell.taken headerSize arena.base cells) (hnull : ptr ≠ 0) (hsmall : n < size.toNat)

include hs hzero hptr hnull hsmall

/-- Without room for a larger block the old one stays as it is. -/
theorem Sound.roomless (hmalloc : malloc arena s.heap size = some (h', 0))
    (hplaced : Placed arena s.heap cells size.toNat h' 0 next) :
    ∃ p s' cells', s.step arena (.realloc ptr size) = some (p, s') ∧ Sound arena s' cells' ∧
      Effect arena s cells p s' cells' (.realloc ptr size) := by
  have hpath := hs.tiled.path hptr
  have hgrows : ¬ blockSize s.heap.memory (ptr - headerSize) ≥ size.toNat := by
    rw [hpath.blockSize hptr]
    exact hsmall.not_ge
  obtain ⟨-, hsame, hnone⟩ := hplaced.null rfl
  have hfirst : s.heap.first ≠ 0 := by
    rw [hpath.eq_base (hs.tiled.region.ne_nil (by decide))]
    exact arena.pos.ne'
  obtain rfl := hsame hfirst
  refine ⟨0, s, cells, ?_, hs, fun h ↦ absurd h hzero, fun _ h ↦ absurd h hnull,
    fun _ _ ↦ ⟨n, hptr, Or.inl ⟨rfl, rfl, hnone⟩⟩, fun q k hq _ ↦ ⟨hq, fun _ _ ↦ rfl⟩⟩
  have hrealloc : Ape.realloc arena s.heap ptr size = some (s.heap, 0) := by
    rw [Ape.realloc, if_neg hzero, if_neg hnull, if_neg hgrows, hmalloc]
    exact if_pos rfl
  simp only [Session.step, hrealloc, Option.map_some, true_and, ne_eq, hzero, not_false_eq_true, if_true]

/-- A block moves to where there is room. -/
theorem Sound.relocated (hmalloc : malloc arena s.heap size = some (h', p))
    (hplaced : Placed arena s.heap cells size.toNat h' p next) (hp : p ≠ 0) :
    ∃ p s' cells', s.step arena (.realloc ptr size) = some (p, s') ∧ Sound arena s' cells' ∧
      Effect arena s cells p s' cells' (.realloc ptr size) := by
  have hblock : blockSize s.heap.memory (ptr - headerSize) = n := (hs.tiled.path hptr).blockSize hptr
  have hgrows : ¬ blockSize s.heap.memory (ptr - headerSize) ≥ size.toNat := by
    rw [hblock]
    exact hsmall.not_ge
  obtain ⟨hfresh, k, hk, htaken⟩ := hplaced.fresh hp
  have hnew : (p, k) ∈ Cell.taken headerSize arena.base next := (htaken p k).mpr (Or.inl ⟨rfl, rfl⟩)
  have hold : (ptr, n) ∈ Cell.taken headerSize arena.base next := (htaken ptr n).mpr (Or.inr hptr)
  have hne : p ≠ ptr := by
    rintro rfl
    exact hfresh n hptr
  have hblock' : blockSize h'.memory (ptr - headerSize) = n :=
    (hplaced.tiled.path hold).blockSize hold
  obtain ⟨m, hm⟩ : ∃ m, m = h'.memory.copy p (h'.memory.shift ptr) n := ⟨_, rfl⟩
  have hfill : Placed arena s.heap cells size.toNat { h' with memory := m } p next := by
    refine hplaced.fill hp fun i hi ↦ ?_
    rw [hm]
    rcases hi with hbelow | habove
    · exact Memory.copy_below _ _ hbelow
    · exact Memory.copy_above _ _ (by omega)
  obtain ⟨hsound, hgranted, hkeeps⟩ := hs.placed hfill
  have hdead : s.live p = none := by
    rcases hgranted with ⟨hno, -⟩ | ⟨-, hdead, -⟩
    · exact absurd hno hp
    · exact hdead
  have hgrant : grant s.live p size.toNat = Function.update s.live p (some size.toNat) := if_neg hp
  have hlive : (grant s.live p size.toNat ptr).isSome := by
    rw [hgrant, Function.update_of_ne (Ne.symm hne)]
    exact hs.live ptr n hptr
  obtain ⟨h'', final, hfree, hfinal, hkept⟩ := hsound.released (Or.inr hlive)
  have horder : Function.update (grant s.live p size.toNat) ptr none =
      grant (Function.update s.live ptr none) p size.toNat := by
    rw [hgrant, grant, if_neg hp]
    exact Function.update_comm hne _ _ _
  rw [horder] at hfinal hkept
  refine ⟨p, ⟨h'', grant (Function.update s.live ptr none) p size.toNat⟩, final, ?_, hfinal,
    fun h ↦ absurd h hzero, fun _ h ↦ absurd h hnull, fun _ _ ↦ ⟨n, hptr, Or.inr ⟨hp, Or.inr hdead,
      if_neg hp, fun i hi ↦ ?_⟩⟩, fun q j hq hqp ↦ ?_⟩
  · have hrealloc : Ape.realloc arena s.heap ptr size = some (h'', p) := by
      rw [Ape.realloc, if_neg hzero, if_neg hnull, if_neg hgrows, hmalloc]
      simp only [if_neg hp, hblock', ← hm, hfree, Option.map_some]
    simp only [Session.step, hrealloc, Option.map_some, hp, false_and, if_false]
  · have hi : i < n := by omega
    calc h''.memory (p + i)
        = m (p + i) := (hkept p k hnew hne).2 i (by omega)
      _ = h'.memory (ptr + i) := by
        rw [hm]
        exact Memory.copy_inside _ _ hi
      _ = s.heap.memory (ptr + i) := hplaced.kept.contents ptr n hptr i hi
  · have hpositive : q ≠ 0 := by
      have hwithin := (Cell.within_of_mem_taken hq).1
      have hpos := arena.pos
      omega
    obtain ⟨hmiddle, hcontents⟩ := hkeeps q j hq hpositive
    obtain ⟨hlast, hcontents'⟩ := hkept q j hmiddle hqp
    exact ⟨hlast, fun i hi ↦ (hcontents' i hi).trans (hcontents i hi)⟩

/-- A block that is too small moves, or stays as it is when there is no room. -/
theorem Sound.moved :
    ∃ p s' cells', s.step arena (.realloc ptr size) = some (p, s') ∧ Sound arena s' cells' ∧
      Effect arena s cells p s' cells' (.realloc ptr size) := by
  obtain ⟨h', p, next, hmalloc, hplaced⟩ := malloc_spec hs.tiled size
  by_cases hp : p = 0
  · subst hp
    exact hs.roomless hzero hptr hnull hsmall hmalloc hplaced
  · exact hs.relocated hzero hptr hnull hsmall hmalloc hplaced hp

end Growth

theorem Sound.realloc (hs : Sound arena s cells) {ptr : ℕ} (hptr : ptr = 0 ∨ (s.live ptr).isSome)
    (size : UInt64) :
    ∃ p s' cells', s.step arena (.realloc ptr size) = some (p, s') ∧ Sound arena s' cells' ∧
      Effect arena s cells p s' cells' (.realloc ptr size) := by
  by_cases hzero : size = 0
  · subst hzero
    obtain ⟨h', next, hfree, hsound, hkeeps⟩ := hs.released hptr
    refine ⟨0, ⟨h', Function.update s.live ptr none⟩, next, ?_, hsound, fun _ ↦ ⟨rfl, rfl⟩,
      fun h ↦ absurd rfl h, fun h ↦ absurd rfl h, hkeeps⟩
    simp [Session.step, Ape.realloc, hfree, grant]
  · by_cases hnull : ptr = 0
    · subst hnull
      obtain ⟨h', p, next, hmalloc, hplaced⟩ := malloc_spec hs.tiled size
      obtain ⟨hsound, hgranted, hkeeps⟩ := hs.placed hplaced
      have hsame : Function.update s.live 0 none = s.live := by
        rw [← hs.live_zero, Function.update_eq_self]
      have hlive : (if p = 0 ∧ size ≠ 0 then s.live
          else grant (Function.update s.live 0 none) p size.toNat) = grant s.live p size.toNat := by
        rw [hsame]
        split
        · rename_i hp
          exact (if_pos hp.1).symm
        · rfl
      refine ⟨p, ⟨h', grant s.live p size.toNat⟩, next, ?_, hsound, fun h ↦ absurd h hzero,
        fun _ _ ↦ hgranted, fun _ h ↦ absurd rfl h, hkeeps⟩
      simp only [Session.step, Ape.realloc, if_neg hzero, if_true, hmalloc, Option.map_some, hlive]
    · obtain ⟨asked, hasked⟩ := Option.isSome_iff_exists.mp (hptr.resolve_left hnull)
      obtain ⟨n, hn, -⟩ := hs.owned ptr asked hasked
      by_cases hfits : size.toNat ≤ n
      · exact hs.resized hzero hn hnull hfits
      · exact hs.moved hzero hn hnull (Nat.lt_of_not_le hfits)

theorem Sound.step (hs : Sound arena s cells) (event : Event) (hallowed : s.Allows event) :
    ∃ p s' cells', s.step arena event = some (p, s') ∧ Sound arena s' cells' ∧
      Effect arena s cells p s' cells' event := by
  cases event with
  | reset =>
    obtain ⟨hpath, -⟩ := apeHeapReset_spec arena s.heap
    refine ⟨0, _, initialCells, rfl, ⟨⟨Or.inl hpath, region_initialCells⟩, nofun, nofun⟩, rfl, ?_⟩
    exact fun _ ↦ rfl
  | malloc size =>
    obtain ⟨h', p, next, hmalloc, hplaced⟩ := malloc_spec hs.tiled size
    obtain ⟨hsound, hgranted, hkeeps⟩ := hs.placed hplaced
    refine ⟨p, _, next, ?_, hsound, hgranted, hkeeps⟩
    simp only [Session.step, hmalloc, Option.map_some]
  | calloc count size => exact hs.calloc count size
  | realloc ptr size => exact hs.realloc hallowed size
  | free ptr =>
    obtain ⟨h', next, hfree, hsound, hkeeps⟩ := hs.released hallowed
    refine ⟨0, _, next, ?_, hsound, rfl, hkeeps⟩
    simp only [Session.step, hfree, Option.map_some]
  | write ptr i byte =>
    obtain ⟨size, hsize, hi⟩ := hallowed
    obtain ⟨n, hn, hfits⟩ := hs.owned ptr size hsize
    obtain ⟨hsound, hkeeps⟩ := hs.written (m := s.heap.memory.set (ptr + i) byte) hn
      fun j hj ↦ Memory.set_of_ne _ _ (by omega)
    exact ⟨0, _, cells, rfl, hsound, rfl, Memory.set_self _ _ _, hkeeps⟩

/-- What holds between the calls holds after every sequence of calls. -/
theorem Sound.run (hs : Sound arena s cells) (events : List Event) (hpermits : s.Permits arena events) :
    ∃ next cells', s.run arena events = some next ∧ Sound arena next cells' := by
  induction events generalizing s cells with
  | nil => exact ⟨s, cells, rfl, hs⟩
  | cons event rest ih =>
    obtain ⟨hallowed, hrest⟩ := hpermits
    obtain ⟨p, s', cells', hstep, hsound, -⟩ := hs.step event hallowed
    obtain ⟨next, final, hrun, hfinal⟩ := ih hsound (hrest p s' hstep)
    refine ⟨next, final, ?_, hfinal⟩
    simp only [Session.run, hstep, hrun]

/-! ## Every program -/

/-- After every sequence of calls the block list tiles the arena, without free neighbours; the pointers
in use are aligned and have disjoint blocks with room for what was asked for, and without any of them the
heap is its first block.  Every further call ends, and does what it should. -/
theorem heap_sound (arena : Arena) (memory : Memory) (events : List Event)
    (hpermits : (Session.start memory).Permits arena events) :
    ∃ s cells, (Session.start memory).run arena events = some s ∧ Sound arena s cells ∧
      (∀ p size, s.live p = some size → 16 ∣ p) ∧
      (∀ p n q k, (p, n) ∈ Cell.taken headerSize arena.base cells →
        (q, k) ∈ Cell.taken headerSize arena.base cells → p ≠ q → p + n ≤ q ∨ q + k ≤ p) ∧
      ((∀ p, s.live p = none) → cells = initialCells) ∧
      ∀ event, s.Allows event → ∃ p s' cells', s.step arena event = some (p, s') ∧
        Sound arena s' cells' ∧ Effect arena s cells p s' cells' event := by
  obtain ⟨s, cells, hrun, hsound⟩ := (sound_start arena memory).run events hpermits
  exact ⟨s, cells, hrun, hsound, fun p size hp ↦ hsound.aligned hp,
    fun p n q k hp hq hne ↦ apart_of_ne hp hq hne, hsound.reclaimed,
    fun event hallowed ↦ hsound.step event hallowed⟩

/-! ### Two blocks -/

/-- An arena at 16 MiB. -/
def exampleArena : Arena := ⟨16 * 1024 * 1024, by decide, by decide, by decide⟩

theorem heap_sound_malloc_malloc :
    ∃ s cells, (Session.start Memory.zero).run exampleArena [.malloc 100, .malloc 0] = some s ∧
      Sound exampleArena s cells ∧ s.live (16 * 1024 * 1024 + 32) = some 100 ∧
      s.live (16 * 1024 * 1024 + 32 + 112 + 32) = some 0 := by
  obtain ⟨s, cells, hrun, hsound, -⟩ := heap_sound exampleArena Memory.zero [.malloc 100, .malloc 0]
    ⟨trivial, fun _ _ _ ↦ ⟨trivial, fun _ _ _ ↦ trivial⟩⟩
  have hlive : ((Session.start Memory.zero).run exampleArena [.malloc 100, .malloc 0]).map
      (fun s ↦ (s.live (16 * 1024 * 1024 + 32), s.live (16 * 1024 * 1024 + 32 + 112 + 32))) =
      some (some 100, some 0) := by decide +kernel
  rw [hrun, Option.map_some, Option.some.injEq, Prod.mk.injEq] at hlive
  exact ⟨s, cells, hrun, hsound, hlive.1, hlive.2⟩

end JordyOS.Ape
