import JordyOS.Ape.Heap

/-!
# The block list

The cells of a first-fit region, laid out in memory: following `next` from header to header, each block
begins where the one before it ends.  The loops of `malloc` and `free` change the list as the region is
changed, and they write nothing but headers.
-/

namespace JordyOS.Ape

open Machine

/-- From the pointer `p` on, the blocks are the cells, the first header at `b`. -/
def Path (m : Memory) : ℕ → ℕ → List Cell → Prop
  | p, _, [] => p = 0
  | p, b, c :: rest =>
    p = b ∧ blockSize m b = c.size ∧ blockAvailable m b = c.available ∧
      Path m (blockNext m b) (b + headerSize + c.size) rest

/-- The bytes around the blocks and the contents of the blocks in use are the same. -/
structure Kept (m m' : Memory) (b : ℕ) (cells : List Cell) : Prop where
  outside : ∀ i, i < b ∨ b + Cell.span headerSize cells ≤ i → m' i = m i
  contents : ∀ q k, (q, k) ∈ Cell.taken headerSize b cells → ∀ i < k, m' (q + i) = m (q + i)

variable {m m' : Memory} {p b size : ℕ} {c : Cell} {cells before rest : List Cell}

theorem Kept.refl (m : Memory) (b : ℕ) (cells : List Cell) : Kept m m b cells :=
  ⟨fun _ _ ↦ rfl, fun _ _ _ _ _ ↦ rfl⟩

theorem Kept.trans {m'' : Memory} {next : List Cell} (h : Kept m m' b cells) (hnext : Kept m' m'' b next)
    (hspan : Cell.span headerSize next = Cell.span headerSize cells)
    (htaken : ∀ q k, (q, k) ∈ Cell.taken headerSize b cells → (q, k) ∈ Cell.taken headerSize b next) :
    Kept m m'' b cells where
  outside i hi := (hnext.outside i (hspan ▸ hi)).trans (h.outside i hi)
  contents q k hq i hi := (hnext.contents q k (htaken q k hq) i hi).trans (h.contents q k hq i hi)

/-- Only bytes of one free cell, or of one header, were changed. -/
theorem Kept.of_cell (before : List Cell) (h : ∀ i, i < b + Cell.span headerSize before ∨
      b + Cell.span headerSize before + headerSize + (if c.available then c.size else 0) ≤ i →
      m' i = m i) : Kept m m' b (before ++ c :: rest) where
  outside i hi := by
    rw [Cell.span_append, Cell.span_cons] at hi
    refine h i ?_
    split <;> omega
  contents q k hq i hi := by
    rw [Cell.taken_append, List.mem_append, Cell.mem_taken_cons] at hq
    refine h (q + i) ?_
    rcases hq with hq | ⟨hc, rfl, rfl⟩ | hq
    · have := Cell.within_of_mem_taken hq
      omega
    · rw [hc, if_neg Bool.false_ne_true]
      omega
    · have := Cell.within_of_mem_taken hq
      split <;> omega

/-! ## Paths -/

theorem Path.congr (h : Path m p b cells)
    (hsame : ∀ i, b ≤ i → i < b + Cell.span headerSize cells → m' i = m i) : Path m' p b cells := by
  induction cells generalizing p b with
  | nil => exact h
  | cons c rest ih =>
    rw [Cell.span_cons] at hsame
    obtain ⟨rfl, hsize, havailable, hrest⟩ := h
    obtain ⟨hsize', hnext', havailable'⟩ := block_congr m m' p fun i hlow hhigh ↦
      hsame i hlow (by omega)
    refine ⟨rfl, hsize'.trans hsize, havailable'.trans havailable, ?_⟩
    rw [hnext']
    exact ih hrest fun i hlow hhigh ↦ hsame i (by omega) (by omega)

/-- A list that is not empty begins with the first header. -/
theorem Path.eq_base (h : Path m p b cells) (hne : cells ≠ []) : p = b := by
  cases cells with
  | nil => exact absurd rfl hne
  | cons c rest => exact h.1

/-- The end of a list. -/
theorem Path.suffix (h : Path m p b (before ++ cells)) :
    ∃ q, Path m q (b + Cell.span headerSize before) cells := by
  induction before generalizing p b with
  | nil => exact ⟨p, h⟩
  | cons c before ih =>
    obtain ⟨q, hq⟩ := ih h.2.2.2
    refine ⟨q, ?_⟩
    rwa [Cell.span_cons, ← Nat.add_assoc, ← Nat.add_assoc]

/-- The end of a list is replaced. -/
theorem Path.replace {tail : List Cell} (h : Path m p b (before ++ cells)) (hne : cells ≠ [])
    (hsame : ∀ i, b ≤ i → i < b + Cell.span headerSize before → m' i = m i)
    (htail : Path m' (b + Cell.span headerSize before) (b + Cell.span headerSize before) tail) :
    Path m' p b (before ++ tail) := by
  induction before generalizing p b with
  | nil =>
    rw [h.eq_base hne]
    exact htail
  | cons c before ih =>
    rw [Cell.span_cons] at hsame htail
    obtain ⟨rfl, hsize, havailable, hrest⟩ := h
    obtain ⟨hsize', hnext', havailable'⟩ := block_congr m m' p fun i hlow hhigh ↦
      hsame i hlow (by omega)
    refine ⟨rfl, hsize'.trans hsize, havailable'.trans havailable, ?_⟩
    rw [hnext']
    refine ih hrest (fun i hlow hhigh ↦ hsame i (by omega) (by omega)) ?_
    rwa [Nat.add_assoc p, Nat.add_assoc p]

/-- The header of a block in use. -/
theorem Path.blockSize {q k : ℕ} (h : Path m p b cells) (hq : (q, k) ∈ Cell.taken headerSize b cells) :
    Ape.blockSize m (q - headerSize) = k := by
  induction cells generalizing p b with
  | nil => cases hq
  | cons c rest ih =>
    rcases Cell.mem_taken_cons.mp hq with ⟨-, rfl, rfl⟩ | hq
    · rw [Nat.add_sub_cancel]
      exact h.2.1
    · exact ih h.2.2.2 hq

/-- The list does not depend on the contents of a block in use. -/
theorem Path.of_contents {q k : ℕ} (h : Path m p b cells) (hq : (q, k) ∈ Cell.taken headerSize b cells)
    (hsame : ∀ i, i < q ∨ q + k ≤ i → m' i = m i) : Path m' p b cells := by
  induction cells generalizing p b with
  | nil => cases hq
  | cons c rest ih =>
    obtain ⟨rfl, hsize, havailable, hrest⟩ := h
    have hwithin := (Cell.within_of_mem_taken hq).1
    obtain ⟨hsize', hnext', havailable'⟩ := block_congr m m' p fun i _ hhigh ↦
      hsame i (by omega)
    refine ⟨rfl, hsize'.trans hsize, havailable'.trans havailable, ?_⟩
    rw [hnext']
    rcases Cell.mem_taken_cons.mp hq with ⟨-, rfl, rfl⟩ | hq
    · exact hrest.congr fun i hlow _ ↦ hsame i (Or.inr hlow)
    · exact ih hrest hq

/-! ## `malloc` -/

/-- The loop passes over blocks that are in use or too small. -/
theorem mallocLoop_pass (h : Path m p b (before ++ cells)) (hb : 0 < b)
    (hpass : ∀ d ∈ before, d.available = true → d.size < size) (rounds : ℕ) :
    ∃ q, Path m q (b + Cell.span headerSize before) cells ∧
      mallocLoop size (before.length + rounds) m p = mallocLoop size rounds m q := by
  induction before generalizing p b with
  | nil => exact ⟨p, h, by rw [List.length_nil, Nat.zero_add]⟩
  | cons c before ih =>
    obtain ⟨rfl, hsize, havailable, hrest⟩ := h
    obtain ⟨hc, hpass⟩ := List.forall_mem_cons.mp hpass
    obtain ⟨q, hq, hloop⟩ := ih hrest (by omega) hpass
    refine ⟨q, by rwa [Cell.span_cons, ← Nat.add_assoc, ← Nat.add_assoc], ?_⟩
    have hskip : blockAvailable m p = false ∨ blockSize m p < size := by
      rw [havailable, hsize]
      cases hfree : c.available with
      | true => exact Or.inr (hc hfree)
      | false => exact Or.inl rfl
    have hrounds : (c :: before).length + rounds = before.length + rounds + 1 := by
      rw [List.length_cons]
      omega
    rw [hrounds, mallocLoop, if_neg hb.ne', if_pos hskip, hloop]

theorem mallocLoop_of_none {rounds : ℕ} (h : Path m p b cells) (hb : 0 < b)
    (hrounds : cells.length < rounds) (hnone : Cell.allocate headerSize 16 size b cells = none) :
    mallocLoop size rounds m p = some (m, 0) := by
  rw [Cell.allocate_eq_none_iff] at hnone
  obtain ⟨spare, rfl⟩ := Nat.exists_eq_add_of_lt hrounds
  rw [← List.append_nil cells] at h
  obtain ⟨q, rfl, hloop⟩ := mallocLoop_pass h hb hnone (spare + 1)
  rw [Nat.add_assoc, hloop, mallocLoop, if_pos rfl]

theorem splitBlock_of_outside {i : ℕ} (hi : i < b ∨ b + headerSize ≤ i)
    (hcut : i < b + headerSize + size ∨ b + headerSize + size + headerSize ≤ i) :
    splitBlock m b size i = m i := by
  unfold splitBlock
  rw [setSize_of_outside hi, setNext_of_outside hi, writeBlock_of_outside hcut]

/-- The remainder of a block follows it. -/
theorem path_splitBlock (h : Path m b b (c :: rest))
    (hfit : b + Cell.span headerSize (c :: rest) ≤ 2 ^ 64) (hlarge : size + headerSize + 16 ≤ c.size) :
    Path (splitBlock m b size) b b
      (⟨size, c.available⟩ :: ⟨c.size - size - headerSize, true⟩ :: rest) := by
  have hheader : 0 < headerSize := by decide
  obtain ⟨-, hsize, havailable, hrest⟩ := h
  rw [Cell.span_cons] at hfit
  obtain ⟨tail, htail⟩ : ∃ tail, tail = b + headerSize + size := ⟨_, rfl⟩
  obtain ⟨cut, hcut⟩ : ∃ cut, cut = writeBlock m tail (blockSize m b - size - headerSize)
      (blockNext m b) true := ⟨_, rfl⟩
  have hsplit : splitBlock m b size = setSize (setNext cut b tail) b size := by
    rw [hcut, htail]
    rfl
  have hkeep : ∀ i, i < tail ∨ tail + headerSize ≤ i → cut i = m i := by
    intro i hi
    rw [hcut]
    exact writeBlock_of_outside hi
  have hbehind : ∀ i, b + headerSize ≤ i → splitBlock m b size i = cut i := by
    intro i hi
    rw [hsplit, setSize_of_outside (Or.inr hi), setNext_of_outside (Or.inr hi)]
  obtain ⟨-, -, hcutAvailable⟩ := block_congr m cut b
    fun i _ hhigh ↦ hkeep i (by omega)
  obtain ⟨htailSize, htailNext, htailAvailable⟩ := block_congr cut (splitBlock m b size) tail
    fun i hlow _ ↦ hbehind i (by omega)
  have hend : tail + headerSize + (c.size - size - headerSize) = b + headerSize + c.size := by omega
  refine ⟨rfl, ?_, ?_, ?_⟩
  · rw [hsplit, blockSize_setSize, Nat.mod_eq_of_lt (by omega)]
  · rw [hsplit, blockAvailable_setSize, blockAvailable_setNext, hcutAvailable, havailable]
  · have hnext : blockNext (splitBlock m b size) b = tail := by
      rw [hsplit, blockNext_setSize, blockNext_setNext, Nat.mod_eq_of_lt (by omega)]
    rw [hnext, ← htail]
    refine ⟨rfl, ?_, ?_, ?_⟩
    · rw [htailSize, hcut, blockSize_writeBlock, hsize, Nat.mod_eq_of_lt (by omega)]
    · rw [htailAvailable, hcut, blockAvailable_writeBlock]
    · have hlink : blockNext (splitBlock m b size) tail = blockNext m b := by
        rw [htailNext, hcut, blockNext_writeBlock, Nat.mod_eq_of_lt (blockNext_lt m b)]
      rw [hlink, hend]
      exact hrest.congr fun i hlow _ ↦ (hbehind i (by omega)).trans (hkeep i (by omega))

/-- The flag of the first block is changed. -/
theorem path_setAvailable (h : Path m b b (c :: rest)) (available : Bool) :
    Path (setAvailable m b available) b b (⟨c.size, available⟩ :: rest) := by
  obtain ⟨-, hsize, -, hrest⟩ := h
  refine ⟨rfl, ?_, blockAvailable_setAvailable, ?_⟩
  · rw [blockSize_setAvailable, hsize]
  · rw [blockNext_setAvailable]
    exact hrest.congr fun i hlow _ ↦ setAvailable_of_outside (by omega)

/-- The loop takes a block that is free and large enough. -/
theorem mallocLoop_take (h : Path m p b (c :: rest)) (hb : 0 < b)
    (hfit : b + Cell.span headerSize (c :: rest) ≤ 2 ^ 64) (hc : c.available = true)
    (hsize : size ≤ c.size) (rounds : ℕ) :
    ∃ m', mallocLoop size (rounds + 1) m p = some (m', b + headerSize) ∧
      Path m' b b (Cell.split headerSize 16 size c rest) ∧
      ∀ i, i < b ∨ b + headerSize + c.size ≤ i → m' i = m i := by
  obtain rfl := h.1
  have htake : ¬ (blockAvailable m p = false ∨ blockSize m p < size) := by
    rw [h.2.2.1, h.2.1, hc]
    simp [hsize]
  unfold mallocLoop Cell.split
  rw [if_neg hb.ne', if_neg htake, h.2.1]
  by_cases hlarge : size + headerSize + 16 ≤ c.size
  · rw [if_pos hlarge, if_pos hlarge]
    refine ⟨_, rfl, path_setAvailable (path_splitBlock h hfit hlarge) false, fun i hi ↦ ?_⟩
    rw [setAvailable_of_outside (by omega), splitBlock_of_outside (by omega) (by omega)]
  · rw [if_neg hlarge, if_neg hlarge]
    exact ⟨_, rfl, path_setAvailable h false, fun i hi ↦ setAvailable_of_outside (by omega)⟩

theorem mallocLoop_of_some {rounds a : ℕ} {next : List Cell} (h : Path m p b cells) (hb : 0 < b)
    (hfit : b + Cell.span headerSize cells ≤ 2 ^ 64) (hrounds : cells.length < rounds)
    (hfound : Cell.allocate headerSize 16 size b cells = some (a, next)) :
    ∃ m', mallocLoop size rounds m p = some (m', a + headerSize) ∧ Path m' p b next ∧
      Kept m m' b cells := by
  obtain ⟨before, c, rest, rfl, rfl, rfl, hc, hsize, hpass⟩ := Cell.allocate_eq_some hfound
  obtain ⟨spare, hspare⟩ : ∃ spare, rounds = before.length + (spare + 1) := by
    rw [List.length_append, List.length_cons] at hrounds
    exact ⟨rounds - before.length - 1, by omega⟩
  obtain ⟨q, hq, hloop⟩ := mallocLoop_pass h hb hpass (spare + 1)
  rw [Cell.span_append, ← Nat.add_assoc] at hfit
  obtain ⟨m', htake, hpath, hsame⟩ := mallocLoop_take hq (by omega) hfit hc hsize spare
  refine ⟨m', by rw [hspare, hloop, htake], ?_, ?_⟩
  · exact h.replace (List.cons_ne_nil c rest) (fun i _ hhigh ↦ hsame i (by omega)) hpath
  · exact Kept.of_cell before fun i hi ↦ hsame i (by rwa [hc, if_pos rfl] at hi)

/-! ## `free` -/

/-- A block in use becomes free. -/
theorem path_release {q k : ℕ} (h : Path m p b cells) (hq : (q, k) ∈ Cell.taken headerSize b cells) :
    Path (setAvailable m (q - headerSize) true) p b (Cell.release headerSize q b cells) ∧
      Kept m (setAvailable m (q - headerSize) true) b cells := by
  obtain ⟨before, c, rest, rfl, hrelease, rfl, hc, -⟩ := Cell.release_eq (by decide) hq
  have hsame : ∀ i, i < b + Cell.span headerSize before ∨
      b + Cell.span headerSize before + headerSize ≤ i →
      setAvailable m (b + Cell.span headerSize before) true i = m i :=
    fun i hi ↦ setAvailable_of_outside hi
  rw [Nat.add_sub_cancel, hrelease]
  constructor
  · obtain ⟨q, hq⟩ := h.suffix
    obtain rfl := hq.1
    exact h.replace (List.cons_ne_nil c rest) (fun i _ hhigh ↦ hsame i (Or.inl hhigh))
      (path_setAvailable hq true)
  · exact Kept.of_cell before fun i hi ↦ hsame i (by omega)

theorem mergeBlock_of_outside {i : ℕ} (hi : i < b ∨ b + headerSize ≤ i) : mergeBlock m b i = m i := by
  unfold mergeBlock
  rw [setNext_of_outside hi, setSize_of_outside hi]

/-- Two neighbours become one block. -/
theorem path_mergeBlock {d : Cell} (h : Path m b b (c :: d :: rest))
    (hfit : b + Cell.span headerSize (c :: d :: rest) ≤ 2 ^ 64) :
    Path (mergeBlock m b) b b (⟨c.size + (headerSize + d.size), c.available⟩ :: rest) := by
  have hheader : 0 < headerSize := by decide
  obtain ⟨-, hsize, havailable, hlink, hnextSize, -, hrest⟩ := h
  rw [Cell.span_cons, Cell.span_cons] at hfit
  obtain ⟨grown, hgrown⟩ : ∃ grown, grown = setSize m b (blockSize m b +
      (headerSize + blockSize m (blockNext m b))) := ⟨_, rfl⟩
  have hmerge : mergeBlock m b = setNext grown b (blockNext grown (blockNext grown b)) := by
    rw [hgrown]
    rfl
  have hnext : blockNext grown b = b + headerSize + c.size := by
    rw [hgrown, blockNext_setSize, hlink]
  obtain ⟨-, hlink', -⟩ := block_congr m grown (b + headerSize + c.size)
    fun i hlow _ ↦ by
      rw [hgrown]
      exact setSize_of_outside (by omega)
  have hend : b + headerSize + (c.size + (headerSize + d.size)) =
      b + headerSize + c.size + headerSize + d.size := by omega
  refine ⟨rfl, ?_, ?_, ?_⟩
  · rw [hmerge, blockSize_setNext, hgrown, blockSize_setSize, hsize, hlink, hnextSize,
      Nat.mod_eq_of_lt (by omega)]
  · rw [hmerge, blockAvailable_setNext, hgrown, blockAvailable_setSize, havailable]
  · have hpointer : blockNext (mergeBlock m b) b = blockNext m (b + headerSize + c.size) := by
      rw [hmerge, blockNext_setNext, Nat.mod_eq_of_lt (blockNext_lt _ _), hnext, hlink']
    rw [hpointer, hend]
    exact hrest.congr fun i hlow _ ↦ mergeBlock_of_outside (by omega)

/-- The changes behind the first block are changes behind the whole list. -/
theorem Kept.cons (h : Kept m m' (b + headerSize + c.size) cells) : Kept m m' b (c :: cells) where
  outside i hi := by
    rw [Cell.span_cons] at hi
    exact h.outside i (by omega)
  contents q k hq i hi := by
    rcases Cell.mem_taken_cons.mp hq with ⟨-, rfl, rfl⟩ | hq
    · exact h.outside _ (Or.inl (by omega))
    · exact h.contents q k hq i hi

/-- The loop merges the free neighbours. -/
theorem freeLoop_spec {rounds : ℕ} (h : Path m p b cells) (hb : 0 < b)
    (hfit : b + Cell.span headerSize cells ≤ 2 ^ 64) (hrounds : cells.length < rounds) :
    ∃ m', freeLoop rounds m p = some m' ∧ Path m' p b (Cell.coalesce headerSize cells) ∧
      Kept m m' b cells := by
  obtain ⟨rounds, rfl⟩ : ∃ n, rounds = n + 1 := ⟨rounds - 1, by omega⟩
  fun_induction Cell.coalesce headerSize cells generalizing m p b rounds with
  | case1 c d rest hboth ih =>
    obtain rfl := h.1
    obtain ⟨rounds, rfl⟩ : ∃ n, rounds = n + 1 :=
      ⟨rounds - 1, by rw [List.length_cons, List.length_cons] at hrounds; omega⟩
    have hspan := Cell.span_merge headerSize c d rest
    have hnext : blockNext m p = p + headerSize + c.size := h.2.2.2.1
    have hwhile : ¬ (p = 0 ∨ blockNext m p = 0) := by omega
    have hfree : blockAvailable m p = true ∧ blockAvailable m (blockNext m p) = true := by
      rw [hnext]
      exact ⟨h.2.2.1.trans hboth.1, h.2.2.2.2.2.1.trans hboth.2⟩
    have hmerge : Kept m (mergeBlock m p) p (c :: d :: rest) :=
      Kept.of_cell [] fun i hi ↦ mergeBlock_of_outside (by
        rw [Cell.span] at hi
        omega)
    obtain ⟨m', hloop, hpath, hkept⟩ := ih (path_mergeBlock h hfit) hb (by rwa [hspan]) rounds
      (by rw [List.length_cons, List.length_cons] at hrounds; rw [List.length_cons]; omega)
    refine ⟨m', ?_, hpath, hmerge.trans hkept hspan fun q k hq ↦ ?_⟩
    · rw [freeLoop, if_neg hwhile, if_pos hfree, hloop]
    · rwa [Cell.taken_merge hboth.1 hboth.2]
  | case2 c d rest hboth ih =>
    obtain rfl := h.1
    obtain ⟨rounds, rfl⟩ : ∃ n, rounds = n + 1 :=
      ⟨rounds - 1, by rw [List.length_cons, List.length_cons] at hrounds; omega⟩
    rw [Cell.span_cons] at hfit
    obtain ⟨-, hsize, havailable, hrest⟩ := h
    have hnext : blockNext m p = p + headerSize + c.size := hrest.1
    have hwhile : ¬ (p = 0 ∨ blockNext m p = 0) := by omega
    have hfree : ¬ (blockAvailable m p = true ∧ blockAvailable m (blockNext m p) = true) := by
      rw [hnext, havailable, hrest.2.2.1]
      exact hboth
    obtain ⟨m', hloop, hpath, hkept⟩ := ih hrest (by omega) (by omega) rounds
      (by rw [List.length_cons] at hrounds; omega)
    obtain ⟨hsize', hnext', havailable'⟩ := block_congr m m' p
      fun i _ hhigh ↦ hkept.outside i (Or.inl (by omega))
    refine ⟨m', ?_, ⟨rfl, hsize'.trans hsize, havailable'.trans havailable, ?_⟩, hkept.cons⟩
    · rw [freeLoop, if_neg hwhile, if_neg hfree, hloop]
    · rwa [hnext']
  | case3 cells hshort =>
    refine ⟨m, ?_, h, Kept.refl m b cells⟩
    have hstop : p = 0 ∨ blockNext m p = 0 := by
      cases cells with
      | nil => exact Or.inl h
      | cons c rest =>
        cases rest with
        | nil =>
          obtain ⟨rfl, -, -, hend⟩ := h
          exact Or.inr hend
        | cons d rest => exact absurd rfl (hshort c d rest)
    rw [freeLoop, if_pos hstop]

end JordyOS.Ape
