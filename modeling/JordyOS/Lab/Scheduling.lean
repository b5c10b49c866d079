import Mathlib.Algebra.Order.Field.Rat
import Mathlib.Data.List.MinMax
import Mathlib.Data.List.Perm.Basic

/-!
# The scheduler simulation

`Scheduler.run` of `CFS-vs-RRML1-sim.py` and `CFS-vs-RRML2.py` with its policies.  Numbers are exact
rationals.  A policy has a state of its own; the run records what was executed when.
-/

namespace JordyOS.Lab

/-! ## Tasks -/

structure RawTask where
  id : ℕ
  arrival : ℚ
  burst : ℚ
  weight : ℚ := 1
  deriving DecidableEq

structure Task where
  /-- Which object it is: its place in the list of tasks. -/
  index : ℕ
  id : ℕ
  arrival : ℚ
  remaining : ℚ
  start : Option ℚ
  finish : Option ℚ
  vruntime : ℚ
  weight : ℚ
  deriving DecidableEq

def tasksOf (raw : List RawTask) : List Task :=
  raw.mapIdx fun i t ↦ ⟨i, t.id, t.arrival, t.burst, none, none, 0, t.weight⟩

/-! ## Policies -/

/-- The methods a scheduler overrides.  `pick` removes and returns an element of the queue, and no slice is
shorter than a positive constant; `update` returns the new `vruntime`. -/
structure Scheduler (σ : Type) where
  pick : σ → (ready : List Task) → ready ≠ [] → (now : ℚ) → σ × Task × List Task
  slice : σ → Task → List Task → σ × ℚ
  update : σ → Task → ℚ → σ × ℚ
  leastSlice : ℚ
  pick_perm : ∀ s ready h now,
    ((pick s ready h now).2.1 :: (pick s ready h now).2.2).Perm ready
  leastSlice_pos : 0 < leastSlice
  leastSlice_le : ∀ s task ready, leastSlice ≤ (slice s task ready).2

/-! ## The run -/

/-- An uninterrupted piece of the execution of a task. -/
structure Execution where
  index : ℕ
  start : ℚ
  length : ℚ
  deriving DecidableEq

/-- The variables of the loop; `pending` are the tasks from `idx` on. -/
structure Run (σ : Type) where
  policy : σ
  ready : List Task
  finished : List Task
  t : ℚ
  pending : List Task
  log : List Execution

def admitUpTo (upTo : ℚ) : (ready pending : List Task) → List Task × List Task
  | ready, [] => (ready, [])
  | ready, task :: pending =>
    if task.arrival ≤ upTo then admitUpTo upTo (ready ++ [task]) pending else (ready, task :: pending)

variable {σ : Type}

/-- The queue is filled; if it stays empty, the clock moves on to the next arrival. -/
def Run.wake (r : Run σ) : Option (Run σ) :=
  let (ready, pending) := admitUpTo r.t r.ready r.pending
  if ready = [] then
    match pending with
    | [] => none
    | task :: _ =>
      let (ready, pending) := admitUpTo task.arrival ready pending
      some { r with ready := ready, pending := pending, t := task.arrival }
  else some { r with ready := ready, pending := pending }

/-- The rest of a task that counts as none. -/
def epsilon : ℚ := 1 / 10 ^ 9

/-- The task behind a slice at time `t`. -/
def Task.serve (task : Task) (t sliceLen : ℚ) : Task :=
  { task with start := some (task.start.getD t), remaining := task.remaining - sliceLen }

/-- The part of a round behind the slice of a task. -/
def Run.settle (r : Run σ) (policy : σ) (ready : List Task) (task : Task) (sliceLen : ℚ) : Run σ :=
  let now := r.t + sliceLen
  let (ready, pending) := admitUpTo now ready r.pending
  let log := r.log ++ [⟨task.index, r.t, sliceLen⟩]
  if task.remaining ≤ epsilon then
    ⟨policy, ready, r.finished ++ [{ task with finish := some now }], now, pending, log⟩
  else ⟨policy, ready ++ [task], r.finished, now, pending, log⟩

/-- One slice of the task that the policy picks. -/
def Run.serve (sched : Scheduler σ) (r : Run σ) (h : r.ready ≠ []) : Run σ :=
  let (policy, task, ready) := sched.pick r.policy r.ready h r.t
  let (policy, slice) := sched.slice policy task ready
  let sliceLen := min slice task.remaining
  let task := task.serve r.t sliceLen
  let (policy, vruntime) := sched.update policy task sliceLen
  r.settle policy ready { task with vruntime := vruntime } sliceLen

/-- One round of the loop; there is none when no task is left to wait for. -/
def Run.round (sched : Scheduler σ) (r : Run σ) : Option (Run σ) := do
  let r ← r.wake
  if h : r.ready = [] then none else some (r.serve sched h)

/-- The loop, for as long as it has rounds left. -/
def Run.loop (sched : Scheduler σ) (n : ℕ) : (rounds : ℕ) → Run σ → Option (Run σ)
  | 0, r => if r.finished.length < n then none else some r
  | rounds + 1, r =>
    if r.finished.length < n then do
      let r ← r.round sched
      Run.loop sched n rounds r
    else some r

def Scheduler.run (sched : Scheduler σ) (policy : σ) (raw : List RawTask) (rounds : ℕ) : Option (Run σ) :=
  Run.loop sched raw.length rounds ⟨policy, [], [], 0, tasksOf raw, []⟩

/-! ## The policies of the experiments -/

/-- The oldest task of the queue. -/
def popLeft (ready : List Task) (h : ready ≠ []) : Task × List Task := (ready.head h, ready.tail)

theorem popLeft_perm (ready : List Task) (h : ready ≠ []) :
    ((popLeft ready h).1 :: (popLeft ready h).2).Perm ready := by
  unfold popLeft
  rw [List.cons_head_tail]

/-- `RoundRobin`, with the methods of the base class. -/
def roundRobin (quantum : ℚ) (h : 0 < quantum) : Scheduler Unit where
  pick _ ready hready _ := ((), popLeft ready hready)
  slice _ _ _ := ((), quantum)
  update _ task _ := ((), task.vruntime)
  leastSlice := quantum
  pick_perm _ ready hready _ := popLeft_perm ready hready
  leastSlice_pos := h
  leastSlice_le _ _ _ := le_refl quantum

/-- `min(ready, key=...)`, the first one of several. -/
def firstMin (key : Task → ℚ) (ready : List Task) (h : ready ≠ []) : Task :=
  (ready.argmin key).get (Option.ne_none_iff_isSome.mp (mt List.argmin_eq_none.mp h))

theorem firstMin_mem (key : Task → ℚ) (ready : List Task) (h : ready ≠ []) : firstMin key ready h ∈ ready :=
  List.argmin_mem (Option.get_mem _)

/-- `CFS`.  A weight of 0 raises an exception in the source; here the quotient is then 0. -/
def cfs (target minGran : ℚ) (h : 0 < minGran) : Scheduler Unit where
  pick _ ready hready _ :=
    let task := firstMin Task.vruntime ready hready
    ((), task, ready.erase task)
  slice _ _ ready := ((), max minGran (target / max 1 (ready.length + 1)))
  update _ task sliceLen := ((), task.vruntime + sliceLen / task.weight)
  leastSlice := minGran
  pick_perm _ ready hready _ := (List.perm_cons_erase (firstMin_mem _ ready hready)).symm
  leastSlice_pos := h
  leastSlice_le _ _ _ := le_max_left _ _

/-- What the learned policies use of a classifier: one probability for each row of features. -/
structure Classifier where
  Model : Type
  predictProba : Model → List ℚ → List ℚ
  partialFit : Option Model → ℚ → Bool → Model
  length_predictProba : ∀ m rows, (predictProba m rows).length = rows.length

/-- What the learned slice uses of a regressor. -/
structure Regressor where
  Model : Type
  predict : Model → ℚ → ℚ
  partialFit : Option Model → ℚ → ℚ → Model

/-- `np.argmax`: the first position of the greatest element. -/
def argmaxIdx (values : List ℚ) : ℕ :=
  match values.argmax id with
  | none => 0
  | some best => values.idxOf best

theorem argmaxIdx_lt {values : List ℚ} (h : values ≠ []) : argmaxIdx values < values.length := by
  unfold argmaxIdx
  split
  · rename_i hnone
    exact List.length_pos_of_ne_nil h
  · rename_i best hbest
    exact List.idxOf_lt_length_of_mem (List.argmax_mem hbest)

/-- The learned pick stays within the queue. -/
theorem argmaxIdx_predictProba_lt (clf : Classifier) (model : clf.Model) {ready : List Task} (h : ready ≠ []) :
    argmaxIdx (clf.predictProba model (ready.map Task.remaining)) < ready.length := by
  have hlength := clf.length_predictProba model (ready.map Task.remaining)
  rw [List.length_map] at hlength
  have hne : clf.predictProba model (ready.map Task.remaining) ≠ [] := by
    rw [← List.length_pos_iff, hlength]
    exact List.length_pos_of_ne_nil h
  rw [← hlength]
  exact argmaxIdx_lt hne

/-- The pick of the learned policies: oldest first until the classifier has been trained. -/
def learnedPick (clf : Classifier) (model : Option clf.Model) (ready : List Task) (h : ready ≠ []) :
    Task × List Task :=
  match model with
  | none => popLeft ready h
  | some model =>
    if ready.length = 1 then popLeft ready h
    else
      let task := ready.get ⟨_, argmaxIdx_predictProba_lt clf model h⟩
      (task, ready.erase task)

theorem learnedPick_perm (clf : Classifier) (model : Option clf.Model) (ready : List Task) (h : ready ≠ []) :
    ((learnedPick clf model ready h).1 :: (learnedPick clf model ready h).2).Perm ready := by
  unfold learnedPick
  split
  · exact popLeft_perm ready h
  · split
    · exact popLeft_perm ready h
    · exact (List.perm_cons_erase (List.get_mem _ _)).symm

/-- `RoundRobinML`. -/
def roundRobinML (clf : Classifier) (quantum : ℚ) (h : 0 < quantum) : Scheduler (Option clf.Model) where
  pick model ready hready _ := (model, learnedPick clf model ready hready)
  slice model _ _ := (model, quantum)
  update model task sliceLen :=
    (some (clf.partialFit model (task.remaining + sliceLen) (decide (task.remaining ≤ epsilon))), task.vruntime)
  leastSlice := quantum
  pick_perm model ready hready _ := learnedPick_perm clf model ready hready
  leastSlice_pos := h
  leastSlice_le _ _ _ := le_refl quantum

/-- `RR_ML2`. -/
def rrMl2 (clf : Classifier) (reg : Regressor) (maxQ minGran : ℚ) (h : 0 < minGran) :
    Scheduler (Option clf.Model × Option reg.Model) where
  pick model ready hready _ := (model, learnedPick clf model.1 ready hready)
  slice model task _ :=
    (model, match model.2 with
      | none => minGran
      | some fitted => max minGran (min maxQ (reg.predict fitted task.remaining)))
  update model task sliceLen :=
    ((some (clf.partialFit model.1 (task.remaining + sliceLen) (decide (task.remaining ≤ epsilon))),
      some (reg.partialFit model.2 (task.remaining + sliceLen) task.remaining)), task.vruntime)
  leastSlice := minGran
  pick_perm model ready hready _ := learnedPick_perm clf model.1 ready hready
  leastSlice_pos := h
  leastSlice_le model _ _ := by
    cases model.2 with
    | none => exact le_refl minGran
    | some fitted => exact le_max_left _ _

end JordyOS.Lab
