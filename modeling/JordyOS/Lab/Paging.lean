import JordyOS.Machine.Recency

/-!
# The LRU simulation

`simulate_lru` of `lru-ml-sim.py`, whose loop is also that of `lru` in `lru-sim-cache.py`.  It counts the
positions of the trace whose page has been used before with fewer than `k` other pages in between.
-/

namespace JordyOS.Lab

open Machine

/-! ## The code -/

variable {α : Type} [DecidableEq α]

/-- The deque, oldest page first, the set of its pages and the counter. -/
structure Lru (α : Type) where
  cache : List α
  present : Finset α
  hits : ℕ

/-- `deque.remove` and `set.remove` fail where there is nothing to remove, and so does `deque.popleft`. -/
def dequeRemove (cache : List α) (p : α) : Option (List α) :=
  if p ∈ cache then some (cache.erase p) else none

def setRemove (present : Finset α) (p : α) : Option (Finset α) :=
  if p ∈ present then some (present.erase p) else none

omit [DecidableEq α] in
def popleft : List α → Option (α × List α)
  | [] => none
  | p :: cache => some (p, cache)

/-- One round of the loop. -/
def simulateLruStep (k : ℕ) (s : Lru α) (p : α) : Option (Lru α) :=
  if p ∈ s.present then do
    let cache ← dequeRemove s.cache p
    some ⟨cache ++ [p], s.present, s.hits + 1⟩
  else do
    let (cache, present) ← (if s.cache.length = k then do
        let (victim, cache) ← popleft s.cache
        let present ← setRemove s.present victim
        some (cache, present)
      else some (s.cache, s.present))
    some ⟨cache ++ [p], insert p present, s.hits⟩

def simulateLru (seq : List α) (k : ℕ) : Option ℕ :=
  (seq.foldlM (simulateLruStep k) ⟨[], ∅, 0⟩).map Lru.hits

/-! ## Reuse -/

/-- The page at position `i` has an earlier occurrence, and fewer than `k` distinct pages stand between its
last one and `i`. -/
def Reused (seq : List α) (k i : ℕ) : Prop :=
  ∃ j < i, seq[j]? = seq[i]? ∧ (∀ m < i, j < m → seq[m]? ≠ seq[i]?) ∧
    ((seq.take i).drop (j + 1)).toFinset.card < k

instance (seq : List α) (k i : ℕ) : Decidable (Reused seq k i) :=
  inferInstanceAs (Decidable (∃ j < i, _))

/-- The number of positions with a reuse. -/
def reuses (seq : List α) (k : ℕ) : ℕ := ((Finset.range seq.length).filter (Reused seq k)).card

variable {seq : List α} {p : α} {k i : ℕ} {s : Lru α}

/-- Whether a page is reused depends on the trace up to it. -/
theorem reused_concat (hi : i < seq.length) : Reused (seq ++ [p]) k i ↔ Reused seq k i := by
  unfold Reused
  refine exists_congr fun j ↦ and_congr_right fun hj ↦ ?_
  have hget (m : ℕ) (hm : m ≤ i) : (seq ++ [p])[m]? = seq[m]? :=
    List.getElem?_append_left (Nat.lt_of_le_of_lt hm hi)
  have htake : (seq ++ [p]).take i = seq.take i := List.take_append_of_le_length (Nat.le_of_lt hi)
  rw [hget j (Nat.le_of_lt hj), hget i (Nat.le_refl i), htake]
  refine and_congr_right fun _ ↦ and_congr_left fun _ ↦ ?_
  refine forall_congr' fun m ↦ forall_congr' fun hm ↦ ?_
  rw [hget m (Nat.le_of_lt hm)]

theorem reused_last : Reused (seq ++ [p]) k seq.length ↔ p ∈ seq.dedup.rtake k := by
  have hlast : (seq ++ [p])[seq.length]? = some p := by simp
  have hget (m : ℕ) (hm : m < seq.length) : (seq ++ [p])[m]? = seq[m]? := List.getElem?_append_left hm
  unfold Reused
  rw [hlast, List.take_left]
  constructor
  · rintro ⟨j, hj, hsame, hlater, hfew⟩
    rw [hget j hj] at hsame
    have hsplit : seq = seq.take j ++ p :: seq.drop (j + 1) := by
      rw [List.getElem?_eq_getElem hj, Option.some.injEq] at hsame
      rw [← hsame, ← List.drop_eq_getElem_cons hj, List.take_append_drop]
    have hnot : p ∉ seq.drop (j + 1) := by
      intro hmem
      obtain ⟨m, hm, heq⟩ := List.getElem_of_mem hmem
      rw [List.length_drop] at hm
      refine hlater (j + 1 + m) (by omega) (by omega) ?_
      rw [hget _ (by omega), ← heq, List.getElem_drop, List.getElem?_eq_getElem]
    rw [hsplit, mem_rtake_dedup hnot]
    exact hfew
  · intro hmem
    have hp : p ∈ seq := List.mem_dedup.mp (List.mem_of_mem_drop hmem)
    obtain ⟨a, b, rfl, hb⟩ := exists_last_occurrence hp
    refine ⟨a.length, by simp, ?_, fun m hm hlater ↦ ?_, ?_⟩
    · rw [hget _ (by simp)]
      simp
    · rw [hget m hm]
      intro heq
      refine hb ?_
      rw [List.getElem?_append_right (Nat.le_of_lt hlater)] at heq
      obtain ⟨n, hn⟩ : ∃ n, m - a.length = n + 1 := ⟨m - a.length - 1, by omega⟩
      rw [hn, List.getElem?_cons_succ] at heq
      exact List.mem_of_getElem? heq
    · have hdrop : (a ++ p :: b).drop (a.length + 1) = b := by
        rw [← List.drop_drop, List.drop_left]
        rfl
      rw [hdrop]
      exact (mem_rtake_dedup hb k).mp hmem

theorem reuses_concat (seq : List α) (p : α) (k : ℕ) :
    reuses (seq ++ [p]) k = reuses seq k + if p ∈ seq.dedup.rtake k then 1 else 0 := by
  have hold : (Finset.range seq.length).filter (Reused (seq ++ [p]) k) =
      (Finset.range seq.length).filter (Reused seq k) :=
    Finset.filter_congr fun i hi ↦ reused_concat (Finset.mem_range.mp hi)
  rw [reuses, List.length_append, List.length_singleton, Finset.range_add_one, Finset.filter_insert, hold, reuses]
  by_cases hmem : p ∈ seq.dedup.rtake k
  · rw [if_pos (reused_last.mpr hmem), if_pos hmem, Finset.card_insert_of_notMem]
    simp
  · rw [if_neg (mt reused_last.mp hmem), if_neg hmem, Nat.add_zero]

/-! ## The simulation -/

/-- The deque holds the last `k` distinct pages, the set the same pages, and the counter is right. -/
structure Lru.Follows (s : Lru α) (seq : List α) (k : ℕ) : Prop where
  cache : s.cache = seq.dedup.rtake k
  present : s.present = s.cache.toFinset
  hits : s.hits = reuses seq k

theorem Lru.Follows.step (h : s.Follows seq k) (hk : 0 < k) (p : α) :
    ∃ after, simulateLruStep k s p = some after ∧ after.Follows (seq ++ [p]) k := by
  obtain ⟨k, rfl⟩ := Nat.exists_eq_add_one_of_ne_zero (Nat.ne_of_gt hk)
  have hmem : p ∈ s.present ↔ p ∈ seq.dedup.rtake (k + 1) := by
    rw [h.present, List.mem_toFinset, h.cache]
  have hnodup : s.cache.Nodup := by
    rw [h.cache]
    exact (List.nodup_dedup seq).sublist (List.drop_sublist _ _)
  unfold simulateLruStep
  by_cases hhit : p ∈ s.present
  · have hrecent := hmem.mp hhit
    have hcache : p ∈ s.cache := h.cache ▸ hrecent
    rw [if_pos hhit, dequeRemove, if_pos hcache]
    refine ⟨_, rfl, ?_, ?_, ?_⟩
    · rw [rtake_dedup_of_mem hrecent, ← h.cache]
    · ext x
      dsimp only
      rw [h.present, List.mem_toFinset, List.mem_toFinset, List.mem_append, List.mem_singleton,
        hnodup.mem_erase_iff]
      constructor
      · intro hx
        by_cases hxp : x = p
        · exact .inr hxp
        · exact .inl ⟨hxp, hx⟩
      · rintro (⟨-, hx⟩ | rfl)
        · exact hx
        · exact hcache
    · dsimp only
      rw [reuses_concat, if_pos hrecent, h.hits]
  · have hold := mt hmem.mpr hhit
    have hlater := rtake_dedup_of_not_mem hold
    have hhits : s.hits = reuses (seq ++ [p]) (k + 1) := by
      rw [reuses_concat, if_neg hold, h.hits]
      rfl
    rw [if_neg hhit]
    rw [← h.cache] at hlater
    by_cases hfull : s.cache.length = k + 1
    · obtain ⟨victim, cache, hcache⟩ := List.exists_cons_of_length_eq_add_one hfull
      have hvictim : victim ∈ s.present := by
        rw [h.present, hcache, List.mem_toFinset]
        exact List.mem_cons_self
      have hnot : victim ∉ cache := by
        rw [hcache, List.nodup_cons] at hnodup
        exact hnodup.1
      rw [if_pos hfull, hcache, popleft]
      change ∃ after, (setRemove s.present victim >>= fun present ↦ some (cache, present)) >>= _ = some after ∧ _
      rw [setRemove, if_pos hvictim]
      refine ⟨_, rfl, ?_, ?_, hhits⟩
      · rw [hlater, if_pos hfull, hcache, List.tail_cons]
      · dsimp only
        rw [h.present, hcache, List.toFinset_cons, Finset.erase_insert (by simpa using hnot),
          List.toFinset_append, Finset.union_comm]
        rfl
    · rw [if_neg hfull]
      refine ⟨_, rfl, ?_, ?_, hhits⟩
      · rw [hlater, if_neg hfull]
      · dsimp only
        rw [h.present, List.toFinset_append, Finset.union_comm]
        rfl

theorem follows_run (seq : List α) (hk : 0 < k) :
    ∃ s, seq.foldlM (simulateLruStep k) ⟨[], ∅, 0⟩ = some s ∧ s.Follows seq k := by
  induction seq using List.reverseRecOn with
  | nil => exact ⟨_, rfl, by rw [List.dedup_nil, List.rtake_nil], rfl, rfl⟩
  | append_singleton seq p ih =>
    obtain ⟨s, hrun, hs⟩ := ih
    obtain ⟨after, hstep, hafter⟩ := hs.step hk p
    refine ⟨after, ?_, hafter⟩
    rw [List.foldlM_append, hrun]
    change simulateLruStep k s p >>= some = some after
    rw [hstep]
    rfl

/-- A larger cache sees every reuse that a smaller one sees. -/
theorem reuses_mono (seq : List α) {k k' : ℕ} (hle : k ≤ k') : reuses seq k ≤ reuses seq k' := by
  refine Finset.card_le_card fun i hi ↦ ?_
  rw [Finset.mem_filter] at hi ⊢
  obtain ⟨hi, j, hj, hsame, hlater, hfew⟩ := hi
  exact ⟨hi, j, hj, hsame, hlater, Nat.lt_of_lt_of_le hfew hle⟩

/-- For every trace and every capacity the simulation counts the reuses within the capacity, so that the hits
do not decrease as the capacity grows. -/
theorem simulateLru_eq_reuses (seq : List α) (hk : 1 ≤ k) :
    simulateLru seq k = some (reuses seq k) ∧
    ∀ k', k ≤ k' → ∃ hits hits', simulateLru seq k = some hits ∧ simulateLru seq k' = some hits' ∧
      hits ≤ hits' := by
  have hrun (k : ℕ) (hk : 0 < k) : simulateLru seq k = some (reuses seq k) := by
    obtain ⟨s, hrun, hs⟩ := follows_run seq hk
    rw [simulateLru, hrun, Option.map_some, hs.hits]
  exact ⟨hrun k hk, fun k' hle ↦ ⟨_, _, hrun k hk, hrun k' (Nat.lt_of_lt_of_le hk hle), reuses_mono seq hle⟩⟩

theorem simulateLru_eq_reuses_loop : simulateLru [1, 2, 3, 1, 2, 4, 1] 2 = some (reuses [1, 2, 3, 1, 2, 4, 1] 2) ∧
    ∀ k', 2 ≤ k' → ∃ hits hits', simulateLru [1, 2, 3, 1, 2, 4, 1] 2 = some hits ∧
      simulateLru [1, 2, 3, 1, 2, 4, 1] k' = some hits' ∧ hits ≤ hits' :=
  simulateLru_eq_reuses _ (by decide)

end JordyOS.Lab
