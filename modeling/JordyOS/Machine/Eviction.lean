import Mathlib.Algebra.Order.Ring.Nat
import Mathlib.Data.Finset.Card
import Mathlib.Data.Finset.Dedup
import Mathlib.Tactic.Common
import Mathlib.Tactic.Linarith

/-!
# Eviction

Caches of bounded size on a trace of pages.  A cache that keeps its pages in a queue, and takes the victim from the
front, misses at most once for each distinct page of a stretch with no more pages than the cache holds.  Any
cache misses on a stretch with more pages than it holds.  So a queue is competitive against every cache.
-/

namespace JordyOS.Machine.Eviction

variable {α : Type} [DecidableEq α]

/-! ## Caches -/

/-- A cache of `k` pages goes from `C` to `D` on a trace, with `m` misses.  A page is loaded only on a miss, and
what is evicted then is up to the cache. -/
inductive Serves (k : ℕ) : (C : Finset α) → (seq : List α) → (m : ℕ) → (D : Finset α) → Prop
  | nil (C : Finset α) : Serves k C [] 0 C
  | hit {C D : Finset α} {p : α} {seq : List α} {m : ℕ} (hp : p ∈ C) (h : Serves k C seq m D) :
      Serves k C (p :: seq) m D
  | miss {C C' D : Finset α} {p : α} {seq : List α} {m : ℕ} (hp : p ∉ C) (hload : p ∈ C') (hfrom : C' ⊆ insert p C)
      (hroom : C'.card ≤ k) (h : Serves k C' seq m D) : Serves k C (p :: seq) (m + 1) D

/-- A cache in a queue.  A hit leaves the queue as it is, or moves the page to the back. -/
inductive Queues (k : ℕ) : (q : List α) → (seq : List α) → (m : ℕ) → (r : List α) → Prop
  | nil (q : List α) : Queues k q [] 0 q
  | hit {q q' r : List α} {p : α} {seq : List α} {m : ℕ} (hp : p ∈ q) (hq : q' = q ∨ q' = q.erase p ++ [p])
      (h : Queues k q' seq m r) : Queues k q (p :: seq) m r
  | load {q r : List α} {p : α} {seq : List α} {m : ℕ} (hp : p ∉ q) (hroom : q.length < k)
      (h : Queues k (q ++ [p]) seq m r) : Queues k q (p :: seq) (m + 1) r
  | evict {v : α} {q r : List α} {p : α} {seq : List α} {m : ℕ} (hp : p ∉ v :: q) (hfull : (v :: q).length = k)
      (h : Queues k (q ++ [p]) seq m r) : Queues k (v :: q) (p :: seq) (m + 1) r

variable {k m : ℕ} {p : α} {seq first second q r : List α} {C D : Finset α}

theorem Serves.append (h : Serves k C (first ++ second) m D) :
    ∃ E n l, Serves k C first n E ∧ Serves k E second l D ∧ m = n + l := by
  induction first generalizing C m with
  | nil => exact ⟨C, 0, m, .nil C, h, (Nat.zero_add m).symm⟩
  | cons p first ih =>
    cases h with
    | hit hp h =>
      obtain ⟨E, n, l, hfirst, hsecond, rfl⟩ := ih h
      exact ⟨E, n, l, .hit hp hfirst, hsecond, rfl⟩
    | miss hp hload hfrom hroom h =>
      obtain ⟨E, n, l, hfirst, hsecond, rfl⟩ := ih h
      exact ⟨E, n + 1, l, .miss hp hload hfrom hroom hfirst, hsecond, by omega⟩

theorem Queues.append (h : Queues k q (first ++ second) m r) :
    ∃ e n l, Queues k q first n e ∧ Queues k e second l r ∧ m = n + l := by
  induction first generalizing q m with
  | nil => exact ⟨q, 0, m, .nil q, h, (Nat.zero_add m).symm⟩
  | cons p first ih =>
    cases h with
    | hit hp hq h =>
      obtain ⟨e, n, l, hfirst, hsecond, rfl⟩ := ih h
      exact ⟨e, n, l, .hit hp hq hfirst, hsecond, rfl⟩
    | load hp hroom h =>
      obtain ⟨e, n, l, hfirst, hsecond, rfl⟩ := ih h
      exact ⟨e, n + 1, l, .load hp hroom hfirst, hsecond, by omega⟩
    | evict hp hfull h =>
      obtain ⟨e, n, l, hfirst, hsecond, rfl⟩ := ih h
      exact ⟨e, n + 1, l, .evict hp hfull hfirst, hsecond, by omega⟩

theorem Serves.card_le (h : Serves k C seq m D) (hC : C.card ≤ k) : D.card ≤ k := by
  induction h with
  | nil C => exact hC
  | hit _ _ ih => exact ih hC
  | miss _ _ _ hroom _ ih => exact ih hroom

/-- Behind a request the page is there. -/
theorem Serves.mem_of_singleton (h : Serves k C [p] m D) : p ∈ D := by
  cases h with
  | hit hp h =>
    cases h
    exact hp
  | miss _ hload _ _ h =>
    cases h
    exact hload

/-- Every page that is not there at first is missed. -/
theorem Serves.card_sdiff_le (h : Serves k C seq m D) : (seq.toFinset \ C).card ≤ m := by
  induction h with
  | nil C => simp
  | @hit C D p seq m hp _ ih =>
    rwa [List.toFinset_cons, Finset.insert_sdiff_of_mem _ hp]
  | @miss C C' D p seq m hp hload hfrom _ _ ih =>
    have hsub : (p :: seq).toFinset \ C ⊆ insert p (seq.toFinset \ C') := by
      intro x hx
      rw [Finset.mem_sdiff, List.toFinset_cons, Finset.mem_insert] at hx
      rw [Finset.mem_insert, Finset.mem_sdiff]
      by_cases hxp : x = p
      · exact Or.inl hxp
      · refine Or.inr ⟨hx.1.resolve_left hxp, fun hmem ↦ ?_⟩
        exact hx.2 ((Finset.mem_insert.mp (hfrom hmem)).resolve_left hxp)
    calc ((p :: seq).toFinset \ C).card ≤ (insert p (seq.toFinset \ C')).card := Finset.card_le_card hsub
      _ ≤ (seq.toFinset \ C').card + 1 := Finset.card_insert_le _ _
      _ ≤ m + 1 := Nat.add_le_add_right ih 1

/-- A cache that holds `p` misses on many other pages. -/
theorem Serves.many {c : ℕ} (h : Serves k C seq m D) (hC : C.card ≤ k) (hp : p ∈ C)
    (hmany : k + c ≤ (insert p seq.toFinset).card) : c ≤ m := by
  have hsub : insert p seq.toFinset ⊆ C ∪ (seq.toFinset \ C) := by
    intro x hx
    rw [Finset.mem_union, Finset.mem_sdiff]
    by_cases hxC : x ∈ C
    · exact Or.inl hxC
    · refine Or.inr ⟨(Finset.mem_insert.mp hx).resolve_left ?_, hxC⟩
      rintro rfl
      exact hxC hp
  have hcard := (Finset.card_le_card hsub).trans (Finset.card_union_le _ _)
  have hmisses := h.card_sdiff_le
  omega

/-! ## Queues -/

omit [DecidableEq α] in
theorem nodup_concat (hnodup : q.Nodup) (hp : p ∉ q) : (q ++ [p]).Nodup := by
  refine List.nodup_append.mpr ⟨hnodup, List.nodup_singleton p, ?_⟩
  rintro x hx y hy rfl
  exact hp (List.mem_singleton.mp hy ▸ hx)

theorem toFinset_concat_subset {S : Finset α} (h : q.toFinset ⊆ S) (p : α) : (q ++ [p]).toFinset ⊆ insert p S := by
  intro x hx
  rw [List.mem_toFinset, List.mem_append, List.mem_singleton] at hx
  rcases hx with hx | rfl
  · exact Finset.mem_insert_of_mem (h (List.mem_toFinset.mpr hx))
  · exact Finset.mem_insert_self x S

/-- What a queue keeps on a stretch: the pages that it has loaded there are at the back. -/
theorem Queues.few_of_back {old back : List α} {S : Finset α} (h : Queues k q seq m r) (hq : q = old ++ back)
    (hnodup : q.Nodup) (hlength : q.length ≤ k) (hback : back.toFinset ⊆ S) (hfew : (S ∪ seq.toFinset).card ≤ k) :
    m + back.length ≤ (S ∪ seq.toFinset).card := by
  have hseen (S : Finset α) (p : α) (seq : List α) : S ∪ (p :: seq).toFinset = insert p S ∪ seq.toFinset := by
    rw [List.toFinset_cons, Finset.union_insert, Finset.insert_union]
  induction h generalizing old back S with
  | nil q =>
    have hcard : back.toFinset.card = back.length :=
      List.toFinset_card_of_nodup (List.nodup_append.mp (hq ▸ hnodup)).2.1
    rw [Nat.zero_add, ← hcard]
    exact Finset.card_le_card (hback.trans Finset.subset_union_left)
  | @hit q q' r p seq m hp hmove _ ih =>
    rw [hseen] at hfew ⊢
    rcases hmove with rfl | rfl
    · exact ih hq hnodup hlength (hback.trans (Finset.subset_insert p S)) hfew
    · have hlength' : (q.erase p ++ [p]).length = q.length := by
        rw [List.length_append, List.length_erase_of_mem hp, List.length_singleton]
        have hpos := List.length_pos_of_mem hp
        omega
      have hnodup' : (q.erase p ++ [p]).Nodup := nodup_concat (hnodup.erase p) hnodup.not_mem_erase
      by_cases hmem : p ∈ back
      · have hold : p ∉ old := by
          rw [hq] at hnodup
          exact fun hmem' ↦ (List.nodup_append.mp hnodup).2.2 p hmem' p hmem rfl
        have hq' : q.erase p ++ [p] = old ++ (back.erase p ++ [p]) := by
          rw [hq, List.erase_append_right _ hold, List.append_assoc]
        have hsub : (back.erase p ++ [p]).toFinset ⊆ insert p S :=
          toFinset_concat_subset (fun x hx ↦ hback (List.mem_toFinset.mpr
            (List.mem_of_mem_erase (List.mem_toFinset.mp hx)))) p
        have hsame : (back.erase p ++ [p]).length = back.length := by
          rw [List.length_append, List.length_erase_of_mem hmem, List.length_singleton]
          have hpos := List.length_pos_of_mem hmem
          omega
        have hle := ih hq' hnodup' (by omega) hsub hfew
        omega
      · have hold : p ∈ old := by
          rw [hq, List.mem_append] at hp
          exact hp.resolve_right hmem
        have hq' : q.erase p ++ [p] = old.erase p ++ (back ++ [p]) := by
          rw [hq, List.erase_append_left _ hold, List.append_assoc]
        have hle := ih hq' hnodup' (by omega) (toFinset_concat_subset hback p) hfew
        rw [List.length_append, List.length_singleton] at hle
        omega
  | @load q r p seq m hp hroom _ ih =>
    rw [hseen] at hfew ⊢
    have hq' : q ++ [p] = old ++ (back ++ [p]) := by rw [hq, List.append_assoc]
    have hlength' : (q ++ [p]).length ≤ k := by
      rw [List.length_append, List.length_singleton]
      exact hroom
    have hle := ih hq' (nodup_concat hnodup hp) hlength' (toFinset_concat_subset hback p) hfew
    rw [List.length_append, List.length_singleton] at hle
    omega
  | @evict v q r p seq m hp hfull _ ih =>
    rw [hseen] at hfew ⊢
    rw [List.length_cons] at hfull
    cases old with
    | nil =>
      -- the queue would hold `k` pages of the stretch, and `p` is another one
      rw [List.nil_append] at hq
      have hcard : (insert p back.toFinset).card = k + 1 := by
        rw [Finset.card_insert_of_notMem (by rwa [List.mem_toFinset, ← hq]),
          List.toFinset_card_of_nodup (hq ▸ hnodup), ← hq, List.length_cons, hfull]
      have hsub : insert p back.toFinset ⊆ insert p S ∪ seq.toFinset :=
        (Finset.insert_subset_insert p hback).trans Finset.subset_union_left
      have hle := Finset.card_le_card hsub
      omega
    | cons w old =>
      rw [List.cons_append, List.cons.injEq] at hq
      have hq' : q ++ [p] = old ++ (back ++ [p]) := by rw [hq.2, List.append_assoc]
      have hnodup' : (q ++ [p]).Nodup :=
        nodup_concat (List.nodup_cons.mp hnodup).2 fun hmem ↦ hp (List.mem_cons_of_mem v hmem)
      have hlength' : (q ++ [p]).length ≤ k := by
        rw [List.length_append, List.length_singleton]
        omega
      have hle := ih hq' hnodup' hlength' (toFinset_concat_subset hback p) hfew
      rw [List.length_append, List.length_singleton] at hle
      omega

/-- On a stretch with few pages a queue misses no page twice. -/
theorem Queues.few (h : Queues k q seq m r) (hnodup : q.Nodup) (hlength : q.length ≤ k)
    (hfew : seq.toFinset.card ≤ k) : m ≤ k := by
  have hle := h.few_of_back (List.append_nil q).symm hnodup hlength (Finset.empty_subset ∅)
    (by rwa [Finset.empty_union])
  rw [Finset.empty_union] at hle
  exact (Nat.le_add_right m 0).trans (hle.trans hfew)

/-- A queue stays within its bounds. -/
theorem Queues.keeps (h : Queues k q seq m r) (hnodup : q.Nodup) (hlength : q.length ≤ k) :
    r.Nodup ∧ r.length ≤ k := by
  induction h with
  | nil q => exact ⟨hnodup, hlength⟩
  | @hit q q' r p seq m hp hmove _ ih =>
    rcases hmove with rfl | rfl
    · exact ih hnodup hlength
    · refine ih (nodup_concat (hnodup.erase p) hnodup.not_mem_erase) ?_
      rw [List.length_append, List.length_erase_of_mem hp, List.length_singleton]
      have hpos := List.length_pos_of_mem hp
      omega
  | @load q r p seq m hp hroom _ ih =>
    refine ih (nodup_concat hnodup hp) ?_
    rw [List.length_append, List.length_singleton]
    exact hroom
  | @evict v q r p seq m hp hfull _ ih =>
    rw [List.length_cons] at hfull
    refine ih (nodup_concat (List.nodup_cons.mp hnodup).2 fun hmem ↦ hp (List.mem_cons_of_mem v hmem)) ?_
    rw [List.length_append, List.length_singleton]
    omega

/-! ## Phases -/

/-- The longest stretch with at most `k` pages, `S` among them. -/
theorem exists_phase (S : Finset α) (hS : S.card ≤ k) (seq : List α) :
    ∃ first second, seq = first ++ second ∧ (S ∪ first.toFinset).card ≤ k ∧
      (second = [] ∨ ∃ p rest, second = p :: rest ∧ (insert p (S ∪ first.toFinset)).card = k + 1) := by
  induction seq generalizing S with
  | nil => exact ⟨[], [], rfl, by simpa using hS, Or.inl rfl⟩
  | cons p seq ih =>
    by_cases hroom : (insert p S).card ≤ k
    · obtain ⟨first, second, rfl, hfew, hend⟩ := ih (insert p S) hroom
      have hseen : S ∪ (p :: first).toFinset = insert p S ∪ first.toFinset := by
        rw [List.toFinset_cons, Finset.union_insert, Finset.insert_union]
      exact ⟨p :: first, second, rfl, hseen ▸ hfew, hseen ▸ hend⟩
    · have hle := Finset.card_insert_le p S
      refine ⟨[], p :: seq, rfl, by simpa using hS, Or.inr ⟨p, seq, rfl, ?_⟩⟩
      rw [List.toFinset_nil, Finset.union_empty]
      omega

/-- From the first request of a phase on. -/
theorem competitive_from {h l : ℕ} (hhk : h ≤ k) (hk : 0 < k) (hqueue : Queues k q (p :: seq) m r)
    (hnodup : q.Nodup) (hlength : q.length ≤ k) (hserves : Serves h C seq l D) (hC : C.card ≤ h) (hp : p ∈ C) :
    (k - h + 1) * m ≤ k * l + k * (k - h + 1) := by
  induction hsize : seq.length using Nat.strong_induction_on generalizing p seq q C m l with
  | _ size ih =>
    obtain ⟨first, second, rfl, hfew, hend⟩ := exists_phase (k := k) {p} ((Finset.card_singleton p).trans_le hk) seq
    have hstretch : (p :: first).toFinset = {p} ∪ first.toFinset := List.toFinset_cons
    rw [← List.cons_append] at hqueue
    obtain ⟨e, n, n', hfirst, hsecond, rfl⟩ := hqueue.append
    have hphase := hfirst.few hnodup hlength (hstretch ▸ hfew)
    have hbound : (k - h + 1) * n ≤ k * (k - h + 1) := by
      rw [Nat.mul_comm k]
      exact Nat.mul_le_mul_left _ hphase
    rcases hend with rfl | ⟨p', rest, rfl, hmany⟩
    · cases hsecond
      exact hbound.trans (Nat.le_add_left _ _)
    · have hsplit : first ++ p' :: rest = (first ++ [p']) ++ rest := by simp
      rw [hsplit] at hserves
      obtain ⟨E, i, j, hbefore, hafter, rfl⟩ := hserves.append
      obtain ⟨hnodup', hlength'⟩ := hfirst.keeps hnodup hlength
      have hpages : insert p (first ++ [p']).toFinset = insert p' ({p} ∪ first.toFinset) := by
        ext x
        simp only [List.mem_toFinset, List.mem_append, List.mem_singleton, Finset.mem_insert, Finset.mem_union,
          Finset.mem_singleton]
        tauto
      have hmissed := hbefore.many (c := k - h + 1) hC hp (by rw [hpages, hmany]; omega)
      obtain ⟨E', i', j', -, hlast, -⟩ := hbefore.append
      have hrest := ih rest.length (by rw [← hsize, List.length_append, List.length_cons]; omega) hsecond hnodup'
        hlength' hafter (hbefore.card_le hC) hlast.mem_of_singleton rfl
      calc (k - h + 1) * (n + n') = (k - h + 1) * n + (k - h + 1) * n' := Nat.mul_add ..
        _ ≤ k * (k - h + 1) + (k * j + k * (k - h + 1)) := Nat.add_le_add hbound hrest
        _ ≤ k * i + (k * j + k * (k - h + 1)) := Nat.add_le_add_right (Nat.mul_le_mul_left k hmissed) _
        _ = k * (i + j) + k * (k - h + 1) := by rw [Nat.mul_add k i j, Nat.add_assoc]

/-- A queue of `k` pages against any cache of `h` pages, from any states of the two. -/
theorem competitive {h l : ℕ} (hhk : h ≤ k) (hk : 0 < k) (hqueue : Queues k q seq m r) (hnodup : q.Nodup)
    (hlength : q.length ≤ k) (hserves : Serves h C seq l D) (hC : C.card ≤ h) :
    (k - h + 1) * m ≤ k * l + k * (k - h + 1) := by
  cases seq with
  | nil =>
    cases hqueue
    exact Nat.zero_le _
  | cons p seq =>
    obtain ⟨E, i, j, hfirst, hrest, rfl⟩ := (List.singleton_append ▸ hserves : Serves h C ([p] ++ seq) l D).append
    have hle := competitive_from hhk hk hqueue hnodup hlength hrest (hfirst.card_le hC) hfirst.mem_of_singleton
    exact hle.trans (Nat.add_le_add_right (Nat.mul_le_mul_left k (Nat.le_add_left j i)) _)

end JordyOS.Machine.Eviction
