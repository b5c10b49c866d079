import JordyOS.Lab.Paging
import JordyOS.Machine.Eviction

/-!
# Eviction policies

The other simulations of `lru-ml-sim.py`, whose loops are also those of `lru-sim-cache.py`, and how far the hits of
two policies can be apart on a trace.  The generator of random numbers and the trained model are parameters.
-/

namespace JordyOS.Lab

open Machine Machine.Eviction

variable {α : Type} [DecidableEq α]

/-! ## The code -/

/-- One round of `simulate_fifo`. -/
def simulateFifoStep (k : ℕ) (s : Lru α) (p : α) : Option (Lru α) :=
  if p ∈ s.present then some { s with hits := s.hits + 1 }
  else do
    let (cache, present) ← (if s.cache.length = k then do
        let (victim, cache) ← popleft s.cache
        let present ← setRemove s.present victim
        some (cache, present)
      else some (s.cache, s.present))
    some ⟨cache ++ [p], insert p present, s.hits⟩

def simulateFifo (seq : List α) (k : ℕ) : Option ℕ :=
  (seq.foldlM (simulateFifoStep k) ⟨[], ∅, 0⟩).map Lru.hits

/-- `cache[victim] = p`, where an index behind the end fails. -/
def replaceAt (s : Lru α) (victim : ℕ) (p : α) : Option (Lru α) := do
  let page ← s.cache[victim]?
  let present ← setRemove s.present page
  some ⟨s.cache.set victim p, insert p present, s.hits⟩

/-- `random.Random`, with its state. -/
structure Random (ρ : Type) where
  seed : ℕ → ρ
  randrange : ρ → ℕ → ℕ × ρ

variable {ρ : Type}

/-- One round of `simulate_random`. -/
def simulateRandomStep (random : Random ρ) (k : ℕ) (s : Lru α × ρ) (p : α) : Option (Lru α × ρ) :=
  if p ∈ s.1.present then some ({ s.1 with hits := s.1.hits + 1 }, s.2)
  else if s.1.cache.length = k then do
    let (victim, rng) := random.randrange s.2 k
    let after ← replaceAt s.1 victim p
    some (after, rng)
  else some (⟨s.1.cache ++ [p], insert p s.1.present, s.1.hits⟩, s.2)

def simulateRandom (random : Random ρ) (seq : List α) (k seed : ℕ) : Option ℕ :=
  (seq.foldlM (simulateRandomStep random k) (⟨[], ∅, 0⟩, random.seed seed)).map fun s ↦ s.1.hits

/-- The variables of `simulate_ml`; `index` counts the rounds. -/
structure Ml (α : Type) where
  lru : Lru α
  lastSeen : α → Option ℕ
  cnts : α → ℕ
  index : ℕ

/-- `last_seen.get(p, -unseen)` -/
def Ml.seen (s : Ml α) (unseen : ℤ) (p : α) : ℤ :=
  match s.lastSeen p with
  | some i => i
  | none => -unseen

/-- What the model is asked about the pages in the cache. -/
def Ml.feats (s : Ml α) (unseen : ℤ) : List (ℤ × ℕ) :=
  s.lru.cache.map fun p ↦ (s.index - s.seen unseen p, s.cnts p)

/-- The end of a round. -/
def Ml.count (s : Ml α) (after : Lru α) (page : α) : Ml α where
  lru := after
  lastSeen := Function.update s.lastSeen page (some s.index)
  cnts := Function.update s.cnts page (s.cnts page + 1)
  index := s.index + 1

/-- One round of `simulate_ml`; `evict` is the index of the least probability that the model predicts. -/
def simulateMlStep (evict : List (ℤ × ℕ) → ℕ) (unseen : ℤ) (k : ℕ) (s : Ml α) (page : α) : Option (Ml α) :=
  if page ∈ s.lru.present then some (s.count { s.lru with hits := s.lru.hits + 1 } page)
  else if s.lru.cache.length = k then do
    let after ← replaceAt s.lru (evict (s.feats unseen)) page
    some (s.count after page)
  else some (s.count ⟨s.lru.cache ++ [page], insert page s.lru.present, s.lru.hits⟩ page)

def simulateMl (evict : List (ℤ × ℕ) → ℕ) (seq : List α) (k : ℕ) (unseen : ℤ) : Option ℕ :=
  (seq.foldlM (simulateMlStep evict unseen k) ⟨⟨[], ∅, 0⟩, fun _ ↦ none, fun _ ↦ 0, 0⟩).map fun s ↦ s.lru.hits

/-! ## Rounds -/

/-- The set holds the pages of the list, each once and at most `k`. -/
structure Lru.Consistent (s : Lru α) (k : ℕ) : Prop where
  nodup : s.cache.Nodup
  present : s.present = s.cache.toFinset
  room : s.cache.length ≤ k

/-- A round, as a cache sees it. -/
structure Rounds (k : ℕ) (s after : Lru α) (p : α) : Prop where
  consistent : after.Consistent k
  hit : p ∈ s.present → after.present = s.present ∧ after.hits = s.hits + 1
  miss : p ∉ s.present → p ∈ after.present ∧ after.present ⊆ insert p s.present ∧ after.hits = s.hits

variable {k : ℕ} {s after : Lru α} {p : α} {seq : List α}

theorem Lru.Consistent.mem_present (h : s.Consistent k) : p ∈ s.present ↔ p ∈ s.cache := by
  rw [h.present, List.mem_toFinset]

/-- A hit without a move. -/
theorem rounds_hit (h : s.Consistent k) (hp : p ∈ s.present) : Rounds k s { s with hits := s.hits + 1 } p where
  consistent := ⟨h.nodup, h.present, h.room⟩
  hit _ := ⟨rfl, rfl⟩
  miss hp' := absurd hp hp'

/-- A miss with room left. -/
theorem rounds_load (h : s.Consistent k) (hp : p ∉ s.present) (hroom : s.cache.length ≠ k) :
    Rounds k s ⟨s.cache ++ [p], insert p s.present, s.hits⟩ p where
  consistent := by
    have hle := h.room
    refine ⟨nodup_concat h.nodup (mt h.mem_present.mpr hp), ?_, ?_⟩
    · rw [h.present, List.toFinset_append, Finset.union_comm]
      rfl
    · rw [List.length_append, List.length_singleton]
      omega
  hit hp' := absurd hp' hp
  miss _ := ⟨Finset.mem_insert_self p _, Finset.Subset.refl _, rfl⟩

/-- The elements of a list without repetitions, after one is replaced. -/
theorem toFinset_set {l : List α} (h : l.Nodup) {i : ℕ} (hi : i < l.length) (p : α) :
    (l.set i p).toFinset = insert p (l.toFinset.erase l[i]) := by
  have hsplit : l = l.take i ++ l[i] :: l.drop (i + 1) := by
    rw [← List.drop_eq_getElem_cons hi, List.take_append_drop]
  have hset : l.set i p = l.take i ++ p :: l.drop (i + 1) :=
    (List.set_eq_take_append_cons_drop ..).trans (if_pos hi)
  rw [hset]
  generalize l[i] = v at *
  generalize l.take i = a at *
  generalize l.drop (i + 1) = b at *
  have hv : v ∉ a ∧ v ∉ b := by
    rw [hsplit, List.nodup_middle, List.nodup_cons, List.mem_append] at h
    exact not_or.mp h.1
  rw [hsplit]
  ext x
  simp only [Finset.mem_insert, Finset.mem_erase, List.mem_toFinset, List.mem_append, List.mem_cons]
  constructor
  · rintro (hx | rfl | hx)
    · exact Or.inr ⟨fun heq ↦ hv.1 (heq ▸ hx), Or.inl hx⟩
    · exact Or.inl rfl
    · exact Or.inr ⟨fun heq ↦ hv.2 (heq ▸ hx), Or.inr (Or.inr hx)⟩
  · rintro (rfl | ⟨hne, hx | hx | hx⟩)
    · exact Or.inr (Or.inl rfl)
    · exact Or.inl hx
    · exact absurd hx hne
    · exact Or.inr (Or.inr hx)

/-- A miss that takes the place of any other page. -/
theorem replaceAt_rounds (h : s.Consistent k) (hp : p ∉ s.present) {victim : ℕ} (hvictim : victim < s.cache.length) :
    ∃ after, replaceAt s victim p = some after ∧ Rounds k s after p := by
  have hmem : s.cache[victim] ∈ s.present := h.mem_present.mpr (List.getElem_mem hvictim)
  have hcache : p ∉ s.cache := mt h.mem_present.mpr hp
  refine ⟨⟨s.cache.set victim p, insert p (s.present.erase s.cache[victim]), s.hits⟩, ?_, ?_, fun hp' ↦ absurd hp' hp,
    fun _ ↦ ⟨Finset.mem_insert_self p _, Finset.insert_subset_insert p (Finset.erase_subset _ _), rfl⟩⟩
  · rw [replaceAt, List.getElem?_eq_getElem hvictim]
    simp only [Option.bind_eq_bind, Option.bind_some, setRemove, if_pos hmem]
  · refine ⟨h.nodup.set hcache, ?_, ?_⟩
    · rw [h.present, toFinset_set h.nodup hvictim]
    · rw [List.length_set]
      exact h.room

/-! ## Queues -/

/-- A round of LRU or FIFO, as a queue sees it. -/
inductive QueueRounds (k : ℕ) (s after : Lru α) (p : α) : Prop
  | hit (hp : p ∈ s.cache) (hcache : after.cache = s.cache ∨ after.cache = s.cache.erase p ++ [p])
      (hhits : after.hits = s.hits + 1)
  | load (hp : p ∉ s.cache) (hroom : s.cache.length < k) (hcache : after.cache = s.cache ++ [p])
      (hhits : after.hits = s.hits)
  | evict {v : α} {q : List α} (hp : p ∉ s.cache) (hv : s.cache = v :: q) (hfull : s.cache.length = k)
      (hcache : after.cache = q ++ [p]) (hhits : after.hits = s.hits)

/-- The miss of both. -/
theorem queue_miss (h : s.Consistent k) (hk : 0 < k) (hp : p ∉ s.present) :
    ∃ after, (do
        let (cache, present) ← (if s.cache.length = k then do
            let (victim, cache) ← popleft s.cache
            let present ← setRemove s.present victim
            some (cache, present)
          else some (s.cache, s.present))
        some (⟨cache ++ [p], insert p present, s.hits⟩ : Lru α)) = some after ∧
      Rounds k s after p ∧ QueueRounds k s after p := by
  have hcache : p ∉ s.cache := mt h.mem_present.mpr hp
  by_cases hfull : s.cache.length = k
  · obtain ⟨v, q, hvq⟩ := List.exists_cons_of_length_pos (hfull ▸ hk)
    have hmem : v ∈ s.present := h.mem_present.mpr (hvq ▸ List.mem_cons_self)
    have hnodup := h.nodup
    rw [hvq, List.nodup_cons] at hnodup
    have hq : p ∉ q := fun hmem ↦ hcache (hvq ▸ List.mem_cons_of_mem v hmem)
    refine ⟨⟨q ++ [p], insert p (s.present.erase v), s.hits⟩, ?_, ⟨⟨nodup_concat hnodup.2 hq, ?_, ?_⟩,
      fun hp' ↦ absurd hp' hp, fun _ ↦
        ⟨Finset.mem_insert_self p _, Finset.insert_subset_insert p (Finset.erase_subset _ _), rfl⟩⟩,
      .evict hcache hvq hfull rfl rfl⟩
    · rw [if_pos hfull, hvq, popleft]
      change (setRemove s.present v >>= fun present ↦ some (q, present)) >>= _ = _
      rw [setRemove, if_pos hmem]
      rfl
    · dsimp only
      rw [h.present, hvq, List.toFinset_cons, Finset.erase_insert (by rw [List.mem_toFinset]; exact hnodup.1),
        List.toFinset_append, Finset.union_comm]
      rfl
    · rw [hvq, List.length_cons] at hfull
      rw [List.length_append, List.length_singleton]
      exact hfull.le
  · rw [if_neg hfull]
    exact ⟨_, rfl, rounds_load h hp hfull, .load hcache (Nat.lt_of_le_of_ne h.room hfull) rfl rfl⟩

theorem simulateFifoStep_rounds (h : s.Consistent k) (hk : 0 < k) (p : α) :
    ∃ after, simulateFifoStep k s p = some after ∧ Rounds k s after p ∧ QueueRounds k s after p := by
  unfold simulateFifoStep
  by_cases hp : p ∈ s.present
  · rw [if_pos hp]
    exact ⟨_, rfl, rounds_hit h hp, .hit (h.mem_present.mp hp) (Or.inl rfl) rfl⟩
  · rw [if_neg hp]
    exact queue_miss h hk hp

theorem simulateLruStep_rounds (h : s.Consistent k) (hk : 0 < k) (p : α) :
    ∃ after, simulateLruStep k s p = some after ∧ Rounds k s after p ∧ QueueRounds k s after p := by
  unfold simulateLruStep
  by_cases hp : p ∈ s.present
  · have hcache := h.mem_present.mp hp
    rw [if_pos hp, dequeRemove, if_pos hcache]
    refine ⟨⟨s.cache.erase p ++ [p], s.present, s.hits + 1⟩, rfl, ⟨⟨?_, ?_, ?_⟩, fun _ ↦ ⟨rfl, rfl⟩,
      fun hp' ↦ absurd hp hp'⟩, .hit hcache (Or.inr rfl) rfl⟩
    · exact nodup_concat (h.nodup.erase p) h.nodup.not_mem_erase
    · ext x
      rw [h.present, List.mem_toFinset, List.mem_toFinset, List.mem_append, List.mem_singleton,
        h.nodup.mem_erase_iff]
      constructor
      · intro hx
        by_cases hxp : x = p
        · exact Or.inr hxp
        · exact Or.inl ⟨hxp, hx⟩
      · rintro (⟨-, hx⟩ | rfl)
        · exact hx
        · exact hcache
    · have hroom := h.room
      have hpos := List.length_pos_of_mem hcache
      rw [List.length_append, List.length_erase_of_mem hcache, List.length_singleton]
      omega
  · rw [if_neg hp]
    exact queue_miss h hk hp

theorem simulateRandomStep_rounds {random : Random ρ} (hrandom : ∀ r n, 0 < n → (random.randrange r n).1 < n)
    (hk : 0 < k) (s : Lru α × ρ) (p : α) (h : s.1.Consistent k) :
    ∃ after, simulateRandomStep random k s p = some after ∧ Rounds k s.1 after.1 p := by
  unfold simulateRandomStep
  by_cases hp : p ∈ s.1.present
  · rw [if_pos hp]
    exact ⟨_, rfl, rounds_hit h hp⟩
  · rw [if_neg hp]
    by_cases hfull : s.1.cache.length = k
    · rw [if_pos hfull]
      have hvictim : (random.randrange s.2 k).1 < s.1.cache.length := by
        rw [hfull]
        exact hrandom s.2 k hk
      obtain ⟨after, hafter, hrounds⟩ := replaceAt_rounds h hp hvictim
      refine ⟨(after, (random.randrange s.2 k).2), ?_, hrounds⟩
      dsimp only
      rw [hafter]
      rfl
    · rw [if_neg hfull]
      exact ⟨_, rfl, rounds_load h hp hfull⟩

theorem simulateMlStep_rounds {evict : List (ℤ × ℕ) → ℕ} (hevict : ∀ feats, feats ≠ [] → evict feats < feats.length)
    (unseen : ℤ) (hk : 0 < k) (s : Ml α) (page : α) (h : s.lru.Consistent k) :
    ∃ after, simulateMlStep evict unseen k s page = some after ∧ Rounds k s.lru after.lru page := by
  unfold simulateMlStep
  by_cases hp : page ∈ s.lru.present
  · rw [if_pos hp]
    exact ⟨_, rfl, rounds_hit h hp⟩
  · rw [if_neg hp]
    by_cases hfull : s.lru.cache.length = k
    · rw [if_pos hfull]
      have hlength : (s.feats unseen).length = s.lru.cache.length := List.length_map _
      have hask : s.feats unseen ≠ [] := by
        rw [← List.length_pos_iff, hlength, hfull]
        exact hk
      obtain ⟨after, hafter, hrounds⟩ := replaceAt_rounds h hp (hlength ▸ hevict _ hask)
      refine ⟨s.count after page, ?_, hrounds⟩
      rw [hafter]
      rfl
    · rw [if_neg hfull]
      exact ⟨_, rfl, rounds_load h hp hfull⟩

/-! ## Runs -/

theorem consistent_start (k : ℕ) : (⟨[], ∅, 0⟩ : Lru α).Consistent k := ⟨List.nodup_nil, rfl, Nat.zero_le k⟩

/-- What a simulation does, when each of its rounds is one of a cache. -/
theorem serves_run {σ : Type} (view : σ → Lru α) {f : σ → α → Option σ}
    (hstep : ∀ s p, (view s).Consistent k → ∃ after, f s p = some after ∧ Rounds k (view s) (view after) p)
    (seq : List α) (s : σ) (hs : (view s).Consistent k) :
    ∃ after m, seq.foldlM f s = some after ∧ Serves k (view s).present seq m (view after).present ∧
      (view after).hits + m = (view s).hits + seq.length := by
  induction seq generalizing s with
  | nil => exact ⟨s, 0, rfl, .nil _, rfl⟩
  | cons p seq ih =>
    obtain ⟨next, hnext, hrounds⟩ := hstep s p hs
    obtain ⟨after, m, hrun, hserves, hhits⟩ := ih next hrounds.consistent
    have hfold : (p :: seq).foldlM f s = some after := by
      rw [List.foldlM_cons, hnext]
      exact hrun
    by_cases hp : p ∈ (view s).present
    · obtain ⟨hpresent, hcount⟩ := hrounds.hit hp
      rw [hpresent] at hserves
      refine ⟨after, m, hfold, .hit hp hserves, ?_⟩
      rw [List.length_cons]
      omega
    · obtain ⟨hload, hfrom, hcount⟩ := hrounds.miss hp
      have hcard : (view next).present.card ≤ k := by
        rw [hrounds.consistent.present]
        exact (List.toFinset_card_le _).trans hrounds.consistent.room
      refine ⟨after, m + 1, hfold, .miss hp hload hfrom hcard hserves, ?_⟩
      rw [List.length_cons]
      omega

theorem queues_run {f : Lru α → α → Option (Lru α)}
    (hstep : ∀ s p, s.Consistent k → ∃ after, f s p = some after ∧ Rounds k s after p ∧ QueueRounds k s after p)
    (seq : List α) (s : Lru α) (hs : s.Consistent k) :
    ∃ after m, seq.foldlM f s = some after ∧ Queues k s.cache seq m after.cache ∧
      after.hits + m = s.hits + seq.length := by
  induction seq generalizing s with
  | nil => exact ⟨s, 0, rfl, .nil _, rfl⟩
  | cons p seq ih =>
    obtain ⟨next, hnext, hrounds, hqueue⟩ := hstep s p hs
    obtain ⟨after, m, hrun, hqueues, hhits⟩ := ih next hrounds.consistent
    have hfold : (p :: seq).foldlM f s = some after := by
      rw [List.foldlM_cons, hnext]
      exact hrun
    rw [List.length_cons]
    cases hqueue with
    | hit hp hcache hcount => exact ⟨after, m, hfold, .hit hp hcache hqueues, by omega⟩
    | load hp hroom hcache hcount =>
      rw [hcache] at hqueues
      exact ⟨after, m + 1, hfold, .load hp hroom hqueues, by omega⟩
    | evict hp hv hfull hcache hcount =>
      rw [hcache] at hqueues
      rw [hv] at hp hfull ⊢
      exact ⟨after, m + 1, hfold, .evict hp hfull hqueues, by omega⟩

/-! ## Comparison -/

/-- A simulation that counts the hits of a cache of `k` pages. -/
def Counts (k : ℕ) (seq : List α) (result : Option ℕ) : Prop :=
  ∃ hits m D, result = some hits ∧ Serves k ∅ seq m D ∧ hits + m = seq.length

theorem counts_of_rounds {σ : Type} (view : σ → Lru α) {f : σ → α → Option σ} {start : σ}
    (hstart : view start = ⟨[], ∅, 0⟩)
    (hstep : ∀ s p, (view s).Consistent k → ∃ after, f s p = some after ∧ Rounds k (view s) (view after) p)
    (seq : List α) : Counts k seq ((seq.foldlM f start).map fun s ↦ (view s).hits) := by
  obtain ⟨after, m, hrun, hserves, hhits⟩ := serves_run view hstep seq start (hstart ▸ consistent_start k)
  rw [hstart] at hserves hhits
  refine ⟨(view after).hits, m, (view after).present, ?_, hserves, ?_⟩
  · rw [hrun]
    rfl
  · rw [hhits]
    exact Nat.zero_add _

/-- The simulations that `run_sweep` compares. -/
def policies (random : Random ρ) (evict : List (ℤ × ℕ) → ℕ) (unseen : ℤ) (seed : ℕ) (seq : List α) (k : ℕ) :
    List (Option ℕ) :=
  [simulateLru seq k, simulateFifo seq k, simulateRandom random seq k seed, simulateMl evict seq k unseen]

theorem policies_count {random : Random ρ} {evict : List (ℤ × ℕ) → ℕ}
    (hrandom : ∀ r n, 0 < n → (random.randrange r n).1 < n)
    (hevict : ∀ feats, feats ≠ [] → evict feats < feats.length) (hk : 0 < k) (unseen : ℤ) (seed : ℕ) (seq : List α) :
    ∀ result ∈ policies random evict unseen seed seq k, Counts k seq result := by
  have hlru : Counts k seq (simulateLru seq k) := counts_of_rounds id rfl
    (fun _ p h ↦ (simulateLruStep_rounds h hk p).imp fun _ hafter ↦ ⟨hafter.1, hafter.2.1⟩) seq
  have hfifo : Counts k seq (simulateFifo seq k) := counts_of_rounds id rfl
    (fun _ p h ↦ (simulateFifoStep_rounds h hk p).imp fun _ hafter ↦ ⟨hafter.1, hafter.2.1⟩) seq
  have hrandom : Counts k seq (simulateRandom random seq k seed) :=
    counts_of_rounds Prod.fst rfl (simulateRandomStep_rounds hrandom hk) seq
  have hml : Counts k seq (simulateMl evict seq k unseen) :=
    counts_of_rounds Ml.lru rfl (simulateMlStep_rounds hevict unseen hk) seq
  intro result hresult
  simp only [policies, List.mem_cons, List.not_mem_nil, or_false] at hresult
  rcases hresult with rfl | rfl | rfl | rfl
  · exact hlru
  · exact hfifo
  · exact hrandom
  · exact hml

theorem queues_count (hk : 0 < k) (seq : List α) :
    ∀ result ∈ [simulateLru seq k, simulateFifo seq k],
      ∃ hits m r, result = some hits ∧ Queues k [] seq m r ∧ hits + m = seq.length := by
  have hrun : ∀ f : Lru α → α → Option (Lru α), (∀ s p, s.Consistent k → ∃ after, f s p = some after ∧
      Rounds k s after p ∧ QueueRounds k s after p) → ∃ hits m r,
        (seq.foldlM f ⟨[], ∅, 0⟩).map Lru.hits = some hits ∧ Queues k [] seq m r ∧ hits + m = seq.length := by
    intro f hstep
    obtain ⟨after, m, hfold, hqueues, hhits⟩ := queues_run hstep seq ⟨[], ∅, 0⟩ (consistent_start k)
    refine ⟨after.hits, m, after.cache, ?_, hqueues, hhits.trans (Nat.zero_add _)⟩
    rw [hfold]
    rfl
  intro result hresult
  simp only [List.mem_cons, List.not_mem_nil, or_false] at hresult
  rcases hresult with rfl | rfl
  · exact hrun _ fun _ p h ↦ simulateLruStep_rounds h hk p
  · exact hrun _ fun _ p h ↦ simulateFifoStep_rounds h hk p

/-- On every trace, a policy has at least as many misses as there are distinct pages.  And LRU and FIFO with `k`
pages are competitive against every policy with `h`, whatever numbers the generator gives and however the model
ranks the pages: the misses are at most `k / (k - h + 1)` times the misses of the other, and `k` more. -/
theorem policies_competitive (random : Random ρ) (evict : List (ℤ × ℕ) → ℕ)
    (hrandom : ∀ r n, 0 < n → (random.randrange r n).1 < n)
    (hevict : ∀ feats, feats ≠ [] → evict feats < feats.length) {h : ℕ} (hh : 0 < h) (hhk : h ≤ k) (unseen : ℤ)
    (seed : ℕ) (seq : List α) :
    ∀ online ∈ [simulateLru seq k, simulateFifo seq k], ∀ other ∈ policies random evict unseen seed seq h,
      ∃ hits hits', online = some hits ∧ other = some hits' ∧ hits ≤ seq.length ∧
        hits' + seq.toFinset.card ≤ seq.length ∧
        (k - h + 1) * (seq.length - hits) ≤ k * (seq.length - hits') + k * (k - h + 1) := by
  intro online honline other hother
  obtain ⟨hits, m, r, hresult, hqueues, hcount⟩ := queues_count (hh.trans_le hhk) seq online honline
  obtain ⟨hits', l, D, hresult', hserves, hcount'⟩ := policies_count hrandom hevict hh unseen seed seq other hother
  have hcold : seq.toFinset.card ≤ l := by
    have hle := hserves.card_sdiff_le
    rwa [Finset.sdiff_empty] at hle
  have hmisses : seq.length - hits = m := by omega
  have hmisses' : seq.length - hits' = l := by omega
  have hle := competitive hhk (hh.trans_le hhk) hqueues List.nodup_nil (Nat.zero_le k) hserves
    (Finset.card_empty.trans_le (Nat.zero_le h))
  refine ⟨hits, hits', hresult, hresult', by omega, by omega, ?_⟩
  rw [hmisses, hmisses']
  exact hle

/-- A generator that counts, and a model that gives every page the same probability. -/
theorem policies_competitive_example :
    ∃ hits hits', simulateFifo [1, 2, 3, 1, 4, 2] 3 = some hits ∧
      simulateMl (fun _ ↦ 0) [1, 2, 3, 1, 4, 2] 2 100000 = some hits' ∧ hits ≤ 6 ∧ hits' + 4 ≤ 6 ∧
        2 * (6 - hits) ≤ 3 * (6 - hits') + 6 :=
  policies_competitive ⟨id, fun r n ↦ (r % n, r + 1)⟩ (fun _ ↦ 0) (fun r _ hn ↦ Nat.mod_lt r hn)
    (fun _ hfeats ↦ List.length_pos_iff.mpr hfeats) (by decide : 0 < 2) (by decide : 2 ≤ 3) 100000 0
    [1, 2, 3, 1, 4, 2] _ (List.mem_cons_of_mem _ List.mem_cons_self) _
    (List.mem_cons_of_mem _ (List.mem_cons_of_mem _ (List.mem_cons_of_mem _ List.mem_cons_self)))

end JordyOS.Lab
