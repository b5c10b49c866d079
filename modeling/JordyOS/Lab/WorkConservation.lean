import JordyOS.Lab.Scheduling
import Mathlib.Algebra.BigOperators.Group.List.Lemmas
import Mathlib.Algebra.Order.Field.Basic
import Mathlib.Data.Rat.Floor

/-!
# The scheduler conserves work

What holds before every round of the loop, whatever the policy picks and however long its slices are; and the
number of slices that are still needed, which every round lowers.
-/

namespace JordyOS.Lab

/-! ## Executions -/

/-- The time a task has been served. -/
def served (log : List Execution) (i : ℕ) : ℚ := ((log.filter (·.index = i)).map Execution.length).sum

def Execution.finish (e : Execution) : ℚ := e.start + e.length

/-- The time lies within the execution. -/
def Execution.Covers (e : Execution) (x : ℚ) : Prop := e.start ≤ x ∧ x < e.finish

variable {log : List Execution} {i : ℕ}

theorem served_append (log : List Execution) (e : Execution) (i : ℕ) :
    served (log ++ [e]) i = served log i + if e.index = i then e.length else 0 := by
  unfold served
  rw [List.filter_append, List.map_append, List.sum_append]
  congr 1
  by_cases h : e.index = i
  · rw [if_pos h, List.filter_cons_of_pos (by simpa using h)]
    simp
  · rw [if_neg h, List.filter_cons_of_neg (by simpa using h)]
    rfl

theorem served_eq_zero (h : ∀ e ∈ log, e.index ≠ i) : served log i = 0 := by
  have hnone : log.filter (·.index = i) = [] := List.filter_eq_nil_iff.mpr fun e he ↦ by simpa using h e he
  rw [served, hnone]
  rfl

/-! ## The invariant -/

/-- The object stands for the raw task, of which the log shows what has been served. -/
structure Task.StandsFor (task : Task) (raw : List RawTask) (log : List Execution) (t : ℚ) : Prop where
  known : ∃ r, raw[task.index]? = some r ∧ task.arrival = r.arrival ∧
    served log task.index + task.remaining = r.burst
  arrived : task.arrival ≤ t

/-- The task has been finished by a time. -/
def Task.FinishedBy (task : Task) (x : ℚ) : Prop := ∃ finish, task.finish = some finish ∧ finish ≤ x

/-- What holds before every round. -/
structure Conserves {σ : Type} (raw : List RawTask) (r : Run σ) : Prop where
  clock : 0 ≤ r.t
  pending : r.pending <:+ tasksOf raw
  indices : ((r.ready ++ r.finished ++ r.pending).map Task.index).Perm (List.range raw.length)
  ready : ∀ task ∈ r.ready, task.StandsFor raw r.log r.t ∧ 0 < task.remaining
  finished : ∀ task ∈ r.finished, task.StandsFor raw r.log r.t ∧ 0 ≤ task.remaining ∧
    task.remaining ≤ epsilon ∧ task.FinishedBy r.t ∧
    ∀ e ∈ r.log, e.index = task.index → task.finish.any (e.finish ≤ ·)
  untouched : ∀ task ∈ r.pending, ∀ e ∈ r.log, e.index ≠ task.index
  started : ∀ e ∈ r.log, e.finish ≤ r.t ∧ ∃ task, raw[e.index]? = some task ∧ task.arrival ≤ e.start
  ordered : r.log.Pairwise fun a b ↦ a.finish ≤ b.start
  busy : ∀ x, 0 ≤ x → x < r.t → (∃ e ∈ r.log, e.Covers x) ∨
    ∀ (i : ℕ) (task : RawTask), raw[i]? = some task → task.arrival ≤ x →
      ∃ done ∈ r.finished, done.index = i ∧ done.FinishedBy x

/-! ## The tasks at the start -/

variable {raw : List RawTask} {task : Task} {t : ℚ}

theorem mem_tasksOf (h : task ∈ tasksOf raw) : ∃ r, raw[task.index]? = some r ∧ task.arrival = r.arrival ∧
    task.remaining = r.burst := by
  obtain ⟨i, hi, rfl⟩ := List.mem_mapIdx.mp h
  exact ⟨raw[i], List.getElem?_eq_getElem hi, rfl, rfl⟩

theorem map_index_tasksOf (raw : List RawTask) : (tasksOf raw).map Task.index = List.range raw.length := by
  refine List.ext_getElem (by simp [tasksOf]) fun i _ _ ↦ ?_
  simp [tasksOf]

theorem pairwise_tasksOf (hsorted : raw.Pairwise (·.arrival ≤ ·.arrival)) :
    (tasksOf raw).Pairwise (·.arrival ≤ ·.arrival) := by
  rw [List.pairwise_iff_getElem] at hsorted ⊢
  intro i j hi hj hij
  rw [tasksOf, List.length_mapIdx] at hi hj
  simpa [tasksOf] using hsorted i j hi hj hij

/-! ## Admission -/

variable {σ : Type} {r : Run σ}

theorem admitUpTo_eq (upTo : ℚ) (ready pending : List Task) :
    ∃ front back, pending = front ++ back ∧ admitUpTo upTo ready pending = (ready ++ front, back) ∧
      (∀ task ∈ front, task.arrival ≤ upTo) ∧ ∀ task ∈ back.head?, upTo < task.arrival := by
  induction pending generalizing ready with
  | nil =>
    refine ⟨[], [], rfl, ?_, List.forall_mem_nil _, fun task htask ↦ ?_⟩
    · rw [admitUpTo, List.append_nil]
    · cases htask
  | cons task pending ih =>
    rw [admitUpTo]
    by_cases harrived : task.arrival ≤ upTo
    · obtain ⟨front, back, rfl, hqueued, hfront, hback⟩ := ih (ready ++ [task])
      refine ⟨task :: front, back, rfl, ?_, List.forall_mem_cons.mpr ⟨harrived, hfront⟩, hback⟩
      rw [if_pos harrived, hqueued, List.append_assoc, List.singleton_append]
    · refine ⟨[], task :: pending, rfl, ?_, List.forall_mem_nil _, fun other hother ↦ ?_⟩
      · rw [if_neg harrived, List.append_nil]
      · rw [List.head?_cons, Option.mem_def, Option.some.injEq] at hother
        exact hother ▸ lt_of_not_ge harrived

/-- The order of the queue does not matter. -/
theorem Conserves.perm (h : Conserves raw r) {ready : List Task} (hperm : ready.Perm r.ready) :
    Conserves raw { r with ready := ready } where
  clock := h.clock
  pending := h.pending
  indices := (((hperm.append_right _).append_right _).map _).trans h.indices
  ready task htask := h.ready task (hperm.mem_iff.mp htask)
  finished := h.finished
  untouched := h.untouched
  started := h.started
  ordered := h.ordered
  busy := h.busy

/-- Tasks that have arrived are admitted. -/
theorem Conserves.admitted (h : Conserves raw r) (hburst : ∀ task ∈ raw, 0 < task.burst) {front back : List Task}
    (hsplit : r.pending = front ++ back) (hfront : ∀ task ∈ front, task.arrival ≤ r.t) :
    Conserves raw { r with ready := r.ready ++ front, pending := back } where
  clock := h.clock
  pending := by
    have hsuffix := h.pending
    rw [hsplit] at hsuffix
    exact (List.suffix_append front back).trans hsuffix
  indices := by
    have hmove : (front ++ (r.finished ++ back)).Perm (r.finished ++ (front ++ back)) :=
      List.perm_append_comm_assoc _ _ _
    refine List.Perm.trans (List.Perm.map _ ?_) h.indices
    rw [hsplit]
    simpa only [List.append_assoc] using hmove.append_left r.ready
  ready task htask := by
    rcases List.mem_append.mp htask with hold | hnew
    · exact h.ready task hold
    · have hpending : task ∈ r.pending := hsplit ▸ List.mem_append_left back hnew
      obtain ⟨first, hfirst, harrival, hremaining⟩ := mem_tasksOf (h.pending.subset hpending)
      refine ⟨⟨⟨first, hfirst, harrival, ?_⟩, hfront task hnew⟩, ?_⟩
      · rw [served_eq_zero (h.untouched task hpending), zero_add, hremaining]
      · rw [hremaining]
        exact hburst first (List.mem_of_getElem? hfirst)
  finished := h.finished
  untouched task htask := h.untouched task (hsplit ▸ List.mem_append_right front htask)
  started := h.started
  ordered := h.ordered
  busy := h.busy

/-- The clock moves on to the next arrival when every task that has arrived is finished. -/
theorem Conserves.jump (h : Conserves raw r) (hsorted : raw.Pairwise (·.arrival ≤ ·.arrival))
    (hempty : r.ready = []) {task : Task} {rest : List Task} (hpending : r.pending = task :: rest)
    (hlater : r.t < task.arrival) : Conserves raw { r with t := task.arrival } where
  clock := h.clock.trans hlater.le
  pending := h.pending
  indices := h.indices
  ready other hother := by
    rw [hempty] at hother
    cases hother
  finished other hother := by
    obtain ⟨hstands, hnonneg, hsmall, ⟨finish, hfinish, hle⟩, hlast⟩ := h.finished other hother
    exact ⟨⟨hstands.known, hstands.arrived.trans hlater.le⟩, hnonneg, hsmall,
      ⟨finish, hfinish, hle.trans hlater.le⟩, hlast⟩
  untouched := h.untouched
  started e he := ⟨(h.started e he).1.trans hlater.le, (h.started e he).2⟩
  ordered := h.ordered
  busy x hx hxt := by
    by_cases hold : x < r.t
    · exact h.busy x hx hold
    · right
      intro i first hfirst harrived
      have hi : i < raw.length := (List.getElem?_eq_some_iff.mp hfirst).1
      have hmem : i ∈ (r.ready ++ r.finished ++ r.pending).map Task.index :=
        h.indices.mem_iff.mpr (List.mem_range.mpr hi)
      rw [hempty, List.nil_append, List.map_append, List.mem_append, List.mem_map, List.mem_map] at hmem
      rcases hmem with ⟨done, hdone, rfl⟩ | ⟨waiting, hwaiting, rfl⟩
      · obtain ⟨-, -, -, ⟨finish, hfinish, hle⟩, -⟩ := h.finished done hdone
        exact ⟨done, hdone, rfl, finish, hfinish, hle.trans (le_of_not_gt hold)⟩
      · -- Behind the head of a sorted list nothing has arrived before the head.
        exfalso
        obtain ⟨first', hfirst', harrival, -⟩ := mem_tasksOf (h.pending.subset hwaiting)
        obtain rfl := Option.some.inj (hfirst'.symm.trans hfirst)
        have hpairwise := (pairwise_tasksOf hsorted).sublist h.pending.sublist
        rw [hpending] at hpairwise hwaiting
        have hnext : task.arrival ≤ waiting.arrival := by
          rcases List.mem_cons.mp hwaiting with rfl | hbehind
          · exact le_rfl
          · exact (List.pairwise_cons.mp hpairwise).1 waiting hbehind
        have hx' : task.arrival ≤ x := (hnext.trans_eq harrival).trans harrived
        exact absurd hxt (not_lt.mpr hx')

/-- Before a slice the queue is not empty, or no task is left. -/
theorem Conserves.wake (h : Conserves raw r) (hsorted : raw.Pairwise (·.arrival ≤ ·.arrival))
    (hburst : ∀ task ∈ raw, 0 < task.burst) :
    (r.ready = [] ∧ r.pending = []) ∨
    ∃ awake, r.wake = some awake ∧ awake.ready ≠ [] ∧ Conserves raw awake ∧
      (awake.ready ++ awake.pending).Perm (r.ready ++ r.pending) ∧ awake.finished = r.finished := by
  obtain ⟨front, back, hsplit, hqueued, hfront, hback⟩ := admitUpTo_eq r.t r.ready r.pending
  have hqueuedted := h.admitted hburst hsplit hfront
  unfold Run.wake
  rw [hqueued]
  dsimp only
  by_cases hempty : r.ready ++ front = []
  · obtain ⟨hready, rfl⟩ := List.append_eq_nil_iff.mp hempty
    rw [List.nil_append] at hsplit
    subst hsplit
    rw [if_pos hempty]
    cases hpending : r.pending with
    | nil => exact .inl ⟨hready, rfl⟩
    | cons task rest =>
      right
      have hlater : r.t < task.arrival := hback task (by rw [hpending]; rfl)
      have hjump := h.jump hsorted hready hpending hlater
      rw [List.append_nil]
      obtain ⟨front, back, hsplit', hqueued', hfront', hback'⟩ := admitUpTo_eq task.arrival r.ready (task :: rest)
      have hawake := hjump.admitted hburst (hpending.trans hsplit') hfront'
      have hnonempty : front ≠ [] := by
        rintro rfl
        rw [List.nil_append] at hsplit'
        exact lt_irrefl _ (hback' task (by rw [← hsplit']; rfl))
      refine ⟨{ r with ready := r.ready ++ front, pending := back, t := task.arrival }, ?_, ?_, hawake, ?_, rfl⟩
      · change some { r with
          ready := (admitUpTo task.arrival r.ready (task :: rest)).1
          pending := (admitUpTo task.arrival r.ready (task :: rest)).2
          t := task.arrival } = _
        rw [hqueued']
      · exact List.append_ne_nil_of_right_ne_nil _ hnonempty
      · rw [hsplit', List.append_assoc]
  · rw [if_neg hempty]
    refine .inr ⟨_, rfl, hempty, hqueuedted, ?_, rfl⟩
    rw [hsplit, List.append_assoc]

/-! ## A slice -/

theorem Conserves.nodup (h : Conserves raw r) : ((r.ready ++ r.finished ++ r.pending).map Task.index).Nodup :=
  h.indices.nodup_iff.mpr List.nodup_range

/-- What is executed for one task does not concern another. -/
theorem Task.StandsFor.other (h : task.StandsFor raw log t) {e : Execution} (hne : e.index ≠ task.index) {now : ℚ}
    (hle : t ≤ now) : task.StandsFor raw (log ++ [e]) now := by
  obtain ⟨first, hfirst, harrival, hserved⟩ := h.known
  refine ⟨⟨first, hfirst, harrival, ?_⟩, h.arrived.trans hle⟩
  rw [served_append, if_neg hne, add_zero, hserved]

/-- What becomes of a task that has been given a slice. -/
inductive Outcome (rest finished : List Task) (now : ℚ) (task : Task) : List Task → List Task → Prop
  | again (h : 0 < task.remaining) : Outcome rest finished now task (task :: rest) finished
  | done (hnonneg : 0 ≤ task.remaining) (hsmall : task.remaining ≤ epsilon) (hfinish : task.finish = some now) :
      Outcome rest finished now task rest (finished ++ [task])

theorem Outcome.subset {rest done ready finished : List Task} {now : ℚ}
    (h : Outcome rest done now task ready finished) : done ⊆ finished := by
  cases h with
  | again => exact List.Subset.refl _
  | done => exact List.subset_append_left _ _

/-- No task is lost. -/
theorem Outcome.perm {rest done ready finished : List Task} {now : ℚ} (h : Outcome rest done now task ready finished)
    (pending : List Task) : (ready ++ finished ++ pending).Perm (task :: (rest ++ done ++ pending)) := by
  cases h with
  | again => exact List.Perm.refl _
  | done =>
    have hmiddle : (rest ++ done ++ task :: pending).Perm (task :: (rest ++ done ++ pending)) := List.perm_middle
    simpa only [List.append_assoc, List.singleton_append] using hmiddle

section Slice

variable {rest : List Task} {sliceLen : ℚ} (h : Conserves raw r) (hready : r.ready = task :: rest)

include h hready

/-- The first task of the queue is in no list behind it. -/
theorem Conserves.index_ne {other : Task} (hmem : other ∈ rest ++ r.finished ++ r.pending) :
    task.index ≠ other.index := by
  have hnodup := h.nodup
  rw [hready, List.cons_append, List.cons_append, List.map_cons, List.nodup_cons] at hnodup
  exact fun heq ↦ hnodup.1 (heq ▸ List.mem_map_of_mem hmem)

theorem Conserves.head : task.StandsFor raw r.log r.t := (h.ready task (hready ▸ List.mem_cons_self)).1

/-- What the task still needs is what it has needed, less the slice. -/
theorem Conserves.sliced (hpos : 0 < sliceLen) {after : Task} (hindex : after.index = task.index)
    (harrival : after.arrival = task.arrival) (hremaining : after.remaining = task.remaining - sliceLen) :
    after.StandsFor raw (r.log ++ [⟨task.index, r.t, sliceLen⟩]) (r.t + sliceLen) := by
  have hlater : r.t ≤ r.t + sliceLen := le_add_of_nonneg_right hpos.le
  obtain ⟨first, hfirst, harrival', hserved⟩ := (h.head hready).known
  refine ⟨⟨first, hindex ▸ hfirst, harrival.trans harrival', ?_⟩, harrival ▸ (h.head hready).arrived.trans hlater⟩
  rw [served_append, hindex, if_pos rfl, hremaining, ← hserved, add_assoc]
  exact congrArg (served r.log task.index + ·) (add_sub_cancel sliceLen task.remaining)

theorem Conserves.waiting (hpos : 0 < sliceLen) {other : Task} (hmem : other ∈ rest) :
    other.StandsFor raw (r.log ++ [⟨task.index, r.t, sliceLen⟩]) (r.t + sliceLen) ∧ 0 < other.remaining := by
  have hne := h.index_ne hready (List.mem_append_left _ (List.mem_append_left _ hmem))
  obtain ⟨hstands, hremaining⟩ := h.ready other (hready ▸ List.mem_cons_of_mem task hmem)
  exact ⟨hstands.other hne (le_add_of_nonneg_right hpos.le), hremaining⟩

theorem Conserves.still_finished (hpos : 0 < sliceLen) {other : Task} (hmem : other ∈ r.finished) :
    other.StandsFor raw (r.log ++ [⟨task.index, r.t, sliceLen⟩]) (r.t + sliceLen) ∧ 0 ≤ other.remaining ∧
      other.remaining ≤ epsilon ∧ other.FinishedBy (r.t + sliceLen) ∧
      ∀ e ∈ r.log ++ [⟨task.index, r.t, sliceLen⟩], e.index = other.index → other.finish.any (e.finish ≤ ·) := by
  have hlater : r.t ≤ r.t + sliceLen := le_add_of_nonneg_right hpos.le
  have hne := h.index_ne hready (List.mem_append_left _ (List.mem_append_right _ hmem))
  obtain ⟨hstands, hnonneg, hsmall, ⟨finish, hfinish, hle⟩, hlast⟩ := h.finished other hmem
  refine ⟨hstands.other hne hlater, hnonneg, hsmall, ⟨finish, hfinish, hle.trans hlater⟩, fun e he heq ↦ ?_⟩
  rcases List.mem_append.mp he with he | he
  · exact hlast e he heq
  · rw [List.mem_singleton.mp he] at heq
    exact absurd heq hne

theorem Conserves.started_slice (hpos : 0 < sliceLen) {e : Execution}
    (he : e ∈ r.log ++ [⟨task.index, r.t, sliceLen⟩]) :
    e.finish ≤ r.t + sliceLen ∧ ∃ first, raw[e.index]? = some first ∧ first.arrival ≤ e.start := by
  rcases List.mem_append.mp he with he | he
  · exact ⟨(h.started e he).1.trans (le_add_of_nonneg_right hpos.le), (h.started e he).2⟩
  · obtain ⟨first, hfirst, harrival, -⟩ := (h.head hready).known
    rw [List.mem_singleton.mp he]
    exact ⟨le_refl _, first, hfirst, harrival ▸ (h.head hready).arrived⟩

omit hready in
/-- The slice covers the time that it adds. -/
theorem Conserves.busy_slice {finished : List Task} (hfinished : r.finished ⊆ finished) (index : ℕ) {x : ℚ} (hx : 0 ≤ x)
    (hxt : x < r.t + sliceLen) : (∃ e ∈ r.log ++ [⟨index, r.t, sliceLen⟩], e.Covers x) ∨
      ∀ (i : ℕ) (task : RawTask), raw[i]? = some task → task.arrival ≤ x →
        ∃ done ∈ finished, done.index = i ∧ done.FinishedBy x := by
  by_cases hbefore : x < r.t
  · rcases h.busy x hx hbefore with ⟨e, he, hcovers⟩ | hall
    · exact .inl ⟨e, List.mem_append_left _ he, hcovers⟩
    · refine .inr fun i first hfirst harrived ↦ ?_
      obtain ⟨done, hmem, hdone⟩ := hall i first hfirst harrived
      exact ⟨done, hfinished hmem, hdone⟩
  · exact .inl ⟨_, List.mem_append_right _ (List.mem_singleton_self _), le_of_not_gt hbefore, hxt⟩

/-- A slice for the first task of the queue. -/
theorem Conserves.slice {ready finished : List Task} (hpos : 0 < sliceLen) (after : Task)
    (hindex : after.index = task.index) (harrival : after.arrival = task.arrival)
    (hremaining : after.remaining = task.remaining - sliceLen)
    (hcase : Outcome rest r.finished (r.t + sliceLen) after ready finished) (policy : σ) :
    Conserves raw ⟨policy, ready, finished, r.t + sliceLen, r.pending, r.log ++ [⟨after.index, r.t, sliceLen⟩]⟩ := by
  rw [hindex]
  have hstands := h.sliced hready hpos hindex harrival hremaining
  exact {
    clock := h.clock.trans (le_add_of_nonneg_right hpos.le)
    pending := h.pending
    indices := by
      have hindices := h.indices
      rw [hready, List.cons_append, List.cons_append, List.map_cons, ← hindex] at hindices
      exact ((hcase.perm r.pending).map Task.index).trans hindices
    ready := by
      cases hcase with
      | again hagain => exact List.forall_mem_cons.mpr ⟨⟨hstands, hagain⟩, fun _ hmem ↦ h.waiting hready hpos hmem⟩
      | done => exact fun _ hmem ↦ h.waiting hready hpos hmem
    finished := by
      cases hcase with
      | again => exact fun _ hmem ↦ h.still_finished hready hpos hmem
      | done hnonneg hsmall hfinish =>
        rw [List.forall_mem_append]
        refine ⟨fun _ hmem ↦ h.still_finished hready hpos hmem,
          List.forall_mem_singleton.mpr ⟨hstands, hnonneg, hsmall, ⟨_, hfinish, le_refl _⟩, fun e he _ ↦ ?_⟩⟩
        rw [hfinish]
        exact decide_eq_true (h.started_slice hready hpos he).1
    untouched := by
      intro other hmem e he
      rcases List.mem_append.mp he with he | he
      · exact h.untouched other hmem e he
      · rw [List.mem_singleton.mp he]
        exact h.index_ne hready (List.mem_append_right _ hmem)
    started := fun _ he ↦ h.started_slice hready hpos he
    ordered := by
      rw [List.pairwise_append]
      refine ⟨h.ordered, List.pairwise_singleton _ _, fun e he last hlast ↦ ?_⟩
      rw [List.mem_singleton.mp hlast]
      exact (h.started e he).1
    busy := fun _ hx hxt ↦ h.busy_slice hcase.subset _ hx hxt }

end Slice

/-! ## Progress -/

/-- The number of slices that the tasks still need at most. -/
def slicesLeft (leastSlice : ℚ) (tasks : List Task) : ℕ :=
  (tasks.map fun task ↦ ⌈task.remaining / leastSlice⌉₊).sum

theorem slicesLeft_perm {leastSlice : ℚ} {tasks other : List Task} (h : tasks.Perm other) :
    slicesLeft leastSlice tasks = slicesLeft leastSlice other := (h.map _).sum_eq

theorem slicesLeft_cons (leastSlice : ℚ) (task : Task) (tasks : List Task) :
    slicesLeft leastSlice (task :: tasks) = ⌈task.remaining / leastSlice⌉₊ + slicesLeft leastSlice tasks := by
  rw [slicesLeft, List.map_cons, List.sum_cons, slicesLeft]

theorem ceil_pos {leastSlice remaining : ℚ} (hleast : 0 < leastSlice) (hremaining : 0 < remaining) :
    0 < ⌈remaining / leastSlice⌉₊ := Nat.ceil_pos.mpr (div_pos hremaining hleast)

/-- A full slice is one slice less. -/
theorem ceil_lt {leastSlice remaining sliceLen : ℚ} (hleast : 0 < leastSlice) (hslice : leastSlice ≤ sliceLen)
    (hremaining : 0 < remaining) :
    ⌈(remaining - sliceLen) / leastSlice⌉₊ < ⌈remaining / leastSlice⌉₊ := by
  have hone : 1 ≤ sliceLen / leastSlice := (one_le_div hleast).mpr hslice
  have hpos := ceil_pos hleast hremaining
  have hle : ⌈(remaining - sliceLen) / leastSlice⌉₊ ≤ ⌈remaining / leastSlice⌉₊ - 1 := by
    rw [Nat.ceil_le, Nat.cast_sub hpos, Nat.cast_one, sub_div]
    exact sub_le_sub (Nat.le_ceil _) hone
  omega

/-- Behind a slice the invariant holds again, and fewer slices are left. -/
theorem Conserves.settle (h : Conserves raw r) (hburst : ∀ task ∈ raw, 0 < task.burst) {rest : List Task}
    (hpick : (task :: rest).Perm r.ready) {leastSlice slice : ℚ} (hleast : 0 < leastSlice)
    (hslice : leastSlice ≤ slice) (after : Task) (hindex : after.index = task.index)
    (harrival : after.arrival = task.arrival)
    (hremaining : after.remaining = task.remaining - min slice task.remaining) (policy : σ) :
    Conserves raw (r.settle policy rest after (min slice task.remaining)) ∧
      slicesLeft leastSlice ((r.settle policy rest after (min slice task.remaining)).ready ++
        (r.settle policy rest after (min slice task.remaining)).pending) <
        slicesLeft leastSlice (r.ready ++ r.pending) := by
  have hpicked := h.perm hpick
  have hwaiting := (hpicked.ready task List.mem_cons_self).2
  have hpos : 0 < min slice task.remaining := lt_min (hleast.trans_le hslice) hwaiting
  obtain ⟨front, back, hsplit, hqueued, hfront, -⟩ :=
    admitUpTo_eq (r.t + min slice task.remaining) rest r.pending
  have hbefore : (r.ready ++ r.pending).Perm (task :: (rest ++ front ++ back)) := by
    rw [hsplit, ← List.append_assoc]
    exact (hpick.symm.append_right front).append_right back
  unfold Run.settle
  dsimp only
  rw [hqueued, slicesLeft_perm hbefore, slicesLeft_cons]
  dsimp only
  by_cases hsmall : after.remaining ≤ epsilon
  · rw [if_pos hsmall]
    have hrest : 0 ≤ after.remaining := by
      rw [hremaining]
      exact sub_nonneg.mpr (min_le_right _ _)
    have hdone := hpicked.slice rfl hpos { after with finish := some (r.t + min slice task.remaining) } hindex
      harrival hremaining (.done hrest hsmall rfl) policy
    refine ⟨hdone.admitted hburst hsplit hfront, ?_⟩
    exact Nat.lt_add_of_pos_left (ceil_pos hleast hwaiting)
  · rw [if_neg hsmall]
    have hagain := hpicked.slice rfl hpos after hindex harrival hremaining
      (.again ((by decide +kernel : (0 : ℚ) < epsilon).trans (lt_of_not_ge hsmall))) policy
    have hqueue : (rest ++ front ++ [after]).Perm (after :: rest ++ front) := List.perm_append_singleton _ _
    have hwhole : (rest ++ front ++ [after] ++ back).Perm (after :: (rest ++ front ++ back)) :=
      hqueue.append_right back
    refine ⟨(hagain.admitted hburst hsplit hfront).perm hqueue, ?_⟩
    -- A slice that was cut short would have finished the task.
    have hfull : min slice task.remaining = slice := by
      refine min_eq_left (le_of_not_gt fun hshort ↦ hsmall ?_)
      rw [hremaining, min_eq_right hshort.le, sub_self]
      exact (by decide +kernel : (0 : ℚ) ≤ epsilon)
    rw [slicesLeft_perm hwhole, slicesLeft_cons, hremaining, hfull]
    exact Nat.add_lt_add_right (ceil_lt hleast hslice hwaiting) _

theorem Conserves.serve (h : Conserves raw r) (hburst : ∀ task ∈ raw, 0 < task.burst) (sched : Scheduler σ)
    (hne : r.ready ≠ []) : Conserves raw (r.serve sched hne) ∧
      slicesLeft sched.leastSlice ((r.serve sched hne).ready ++ (r.serve sched hne).pending) <
        slicesLeft sched.leastSlice (r.ready ++ r.pending) := by
  let picked := sched.pick r.policy r.ready hne r.t
  let sliced := sched.slice picked.1 picked.2.1 picked.2.2
  let task := picked.2.1.serve r.t (min sliced.2 picked.2.1.remaining)
  let updated := sched.update sliced.1 task (min sliced.2 picked.2.1.remaining)
  have hserve : r.serve sched hne = r.settle updated.1 picked.2.2 { task with vruntime := updated.2 }
      (min sliced.2 picked.2.1.remaining) := rfl
  have hpick : (picked.2.1 :: picked.2.2).Perm r.ready := sched.pick_perm r.policy r.ready hne r.t
  have hslice : sched.leastSlice ≤ sliced.2 := sched.leastSlice_le picked.1 picked.2.1 picked.2.2
  rw [hserve]
  exact h.settle hburst hpick sched.leastSlice_pos hslice { task with vruntime := updated.2 } rfl rfl rfl updated.1

/-- A round of the loop while tasks are unfinished. -/
theorem Conserves.round (h : Conserves raw r) (hsorted : raw.Pairwise (·.arrival ≤ ·.arrival))
    (hburst : ∀ task ∈ raw, 0 < task.burst) (sched : Scheduler σ) (hmore : r.finished.length < raw.length) :
    ∃ after, r.round sched = some after ∧ Conserves raw after ∧
      slicesLeft sched.leastSlice (after.ready ++ after.pending) <
        slicesLeft sched.leastSlice (r.ready ++ r.pending) := by
  rcases h.wake hsorted hburst with ⟨hready, hpending⟩ | ⟨awake, hwake, hne, hawake, hperm, -⟩
  · have hlength := h.indices.length_eq
    rw [hready, hpending, List.nil_append, List.append_nil, List.length_map, List.length_range] at hlength
    omega
  · obtain ⟨hserve, hless⟩ := hawake.serve hburst sched hne
    refine ⟨awake.serve sched hne, ?_, hserve, ?_⟩
    · rw [Run.round, hwake]
      exact dif_neg hne
    · rwa [slicesLeft_perm hperm] at hless

theorem conserves_start (raw : List RawTask) (policy : σ) : Conserves raw ⟨policy, [], [], 0, tasksOf raw, []⟩ where
  clock := le_refl 0
  pending := List.suffix_refl _
  indices := by
    change ((tasksOf raw).map Task.index).Perm _
    rw [map_index_tasksOf]
  ready := List.forall_mem_nil _
  finished := List.forall_mem_nil _
  untouched _ _ := List.forall_mem_nil _
  started := List.forall_mem_nil _
  ordered := .nil
  busy _ hx hxt := absurd hxt (not_lt.mpr hx)

/-- The loop ends, and the invariant holds where it ends. -/
theorem Conserves.loop (h : Conserves raw r) (hsorted : raw.Pairwise (·.arrival ≤ ·.arrival))
    (hburst : ∀ task ∈ raw, 0 < task.burst) (sched : Scheduler σ) :
    ∃ rounds final, Run.loop sched raw.length rounds r = some final ∧ Conserves raw final ∧
      raw.length ≤ final.finished.length := by
  induction hleft : slicesLeft sched.leastSlice (r.ready ++ r.pending) using Nat.strongRecOn generalizing r with
  | ind left ih =>
    by_cases hmore : r.finished.length < raw.length
    · obtain ⟨after, hround, hafter, hless⟩ := h.round hsorted hburst sched hmore
      rw [hleft] at hless
      obtain ⟨rounds, final, hloop, hfinal⟩ := ih _ hless hafter rfl
      refine ⟨rounds + 1, final, ?_, hfinal⟩
      rw [Run.loop, if_pos hmore, hround]
      exact hloop
    · exact ⟨0, r, if_neg hmore, h, Nat.le_of_not_lt hmore⟩

/-! ## Work conservation -/

/-- A finished run that wastes nothing.  The clock starts at 0, and nothing runs before. -/
structure Run.WorkConserving (raw : List RawTask) (final : Run σ) : Prop where
  once : (final.finished.map Task.index).Perm (List.range raw.length)
  afterArrival : ∀ e ∈ final.log, ∃ task, raw[e.index]? = some task ∧ task.arrival ≤ e.start
  disjoint : final.log.Pairwise fun a b ↦ a.finish ≤ b.start
  neverIdle : ∀ task ∈ final.finished, ∀ x, 0 ≤ x → task.arrival ≤ x → ¬ task.FinishedBy x →
    ∃ e ∈ final.log, e.Covers x
  served : ∀ task ∈ final.finished, ∃ first finish, raw[task.index]? = some first ∧ task.finish = some finish ∧
    (∀ e ∈ final.log, e.index = task.index → e.finish ≤ finish) ∧
    served final.log task.index ≤ first.burst ∧ first.burst - epsilon ≤ served final.log task.index

/-- Every run ends with every task finished once.  No task runs before it arrives, executions do not overlap and
none follows the end of its task, the processor never idles while a task that has arrived is unfinished, and each
task has been served for its burst, up to the rest that counts as none. -/
theorem run_workConserving (sched : Scheduler σ) (policy : σ) (raw : List RawTask)
    (hsorted : raw.Pairwise (·.arrival ≤ ·.arrival)) (hburst : ∀ task ∈ raw, 0 < task.burst) :
    ∃ rounds final, sched.run policy raw rounds = some final ∧ final.WorkConserving raw := by
  obtain ⟨rounds, final, hrun, hfinal, hall⟩ := (conserves_start raw policy).loop hsorted hburst sched
  have hlength := hfinal.indices.length_eq
  rw [List.length_map, List.length_range, List.length_append, List.length_append] at hlength
  have hready : final.ready = [] := List.length_eq_zero_iff.mp (by omega)
  have hpending : final.pending = [] := List.length_eq_zero_iff.mp (by omega)
  have hindices := hfinal.indices
  rw [hready, hpending, List.nil_append, List.append_nil] at hindices
  have hnodup : (final.finished.map Task.index).Nodup := hindices.nodup_iff.mpr List.nodup_range
  refine ⟨rounds, final, hrun, hindices, fun e he ↦ (hfinal.started e he).2, hfinal.ordered,
    fun task htask x hx harrived hunfinished ↦ ?_, fun task htask ↦ ?_⟩
  · obtain ⟨⟨⟨first, hfirst, harrival, -⟩, -⟩, -, -, ⟨finish, hfinish, hle⟩, -⟩ := hfinal.finished task htask
    have hxt : x < final.t := by
      by_contra hlater
      exact hunfinished ⟨finish, hfinish, hle.trans (le_of_not_gt hlater)⟩
    rcases hfinal.busy x hx hxt with hcovered | hdone
    · exact hcovered
    · obtain ⟨other, hother, hindex, hfinished⟩ := hdone task.index first hfirst (harrival ▸ harrived)
      obtain rfl : other = task := List.inj_on_of_nodup_map hnodup hother htask hindex
      exact absurd hfinished hunfinished
  · obtain ⟨⟨⟨first, hfirst, -, hserved⟩, -⟩, hnonneg, hsmall, ⟨finish, hfinish, -⟩, hlast⟩ :=
      hfinal.finished task htask
    refine ⟨first, finish, hfirst, hfinish, fun e he hindex ↦ ?_, ?_, ?_⟩
    · have hany := hlast e he hindex
      rw [hfinish] at hany
      exact of_decide_eq_true hany
    · rw [← hserved]
      exact le_add_of_nonneg_right hnonneg
    · rw [← hserved, sub_le_iff_le_add]
      exact add_le_add_right hsmall _

theorem run_workConserving_cfs : ∃ rounds final,
    (cfs 80 5 (by decide +kernel)).run () [⟨7, 1, 12, 1⟩, ⟨8, 3, 5, 1⟩] rounds = some final ∧
      final.WorkConserving [⟨7, 1, 12, 1⟩, ⟨8, 3, 5, 1⟩] :=
  run_workConserving _ _ _ (by decide +kernel) (by decide +kernel)

/-- A classifier that takes a task for done soon if its rest is not longer than the last one it saw done. -/
def lastDone : Classifier where
  Model := ℚ
  predictProba longest rests := rests.map fun rest ↦ if rest ≤ longest then 1 else 0
  partialFit model rest done := if done then rest else model.getD 0
  length_predictProba _ _ := List.length_map _

/-- A regressor that expects the rest it saw last. -/
def lastRest : Regressor where
  Model := ℚ
  predict rest _ := rest
  partialFit _ _ rest := rest

-- The second task is longer than the first one, and the third is taken before it.
example : ((roundRobinML lastDone 4 (by decide +kernel)).run none
    [⟨7, 1, 3, 1⟩, ⟨8, 2, 9, 1⟩, ⟨9, 3, 2, 1⟩] 5).map Run.log =
      some [⟨0, 1, 3⟩, ⟨2, 4, 2⟩, ⟨1, 6, 4⟩, ⟨1, 10, 4⟩, ⟨1, 14, 1⟩] := by decide +kernel

example : ((rrMl2 lastDone lastRest 20 2 (by decide +kernel)).run (none, none)
    [⟨7, 1, 3, 1⟩, ⟨8, 2, 9, 1⟩, ⟨9, 3, 2, 1⟩] 6).map Run.log =
      some [⟨0, 1, 2⟩, ⟨1, 3, 2⟩, ⟨2, 5, 2⟩, ⟨0, 7, 1⟩, ⟨1, 8, 2⟩, ⟨1, 10, 5⟩] := by decide +kernel

end JordyOS.Lab
