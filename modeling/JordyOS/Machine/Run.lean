import Mathlib.Data.List.Basic
import Mathlib.Data.List.Induction
import Mathlib.Tactic.Common

/-!
# Runs of a deterministic machine

A machine is a step function on states.  A run feeds it a list of events.  Invariants are proved
one step at a time and lifted here; a statement about the past is obtained by locating the step of
the run at which a predicate changed its truth value.
-/

namespace JordyOS.Machine

variable {State Event : Type*} (step : State → Event → State)

/-- The state after feeding `events` to the machine in order. -/
def run (start : State) (events : List Event) : State :=
  events.foldl step start

@[simp]
theorem run_nil (start : State) : run step start [] = start := rfl

@[simp]
theorem run_cons (start : State) (event : Event) (events : List Event) :
    run step start (event :: events) = run step (step start event) events := rfl

theorem run_append (start : State) (first second : List Event) :
    run step start (first ++ second) = run step (run step start first) second := by
  simp only [run, List.foldl_append]

theorem run_concat (start : State) (events : List Event) (event : Event) :
    run step start (events ++ [event]) = step (run step start events) event := by
  rw [run_append, run_cons, run_nil]

/-- Induction along a run, for a predicate on the events so far and the state they lead to. -/
theorem run_induction (predicate : List Event → State → Prop) {start : State} {events : List Event}
    (hstart : predicate [] start)
    (hstep : ∀ before event after, events = before ++ event :: after →
      predicate before (run step start before) →
      predicate (before ++ [event]) (step (run step start before) event)) :
    predicate events (run step start events) := by
  induction events using List.reverseRecOn with
  | nil => exact hstart
  | append_singleton events event ih =>
    rw [run_concat]
    refine hstep events event [] rfl (ih ?_)
    intro before other after hsplit
    exact hstep before other (after ++ [event]) (by simp [hsplit])

/-- A predicate preserved by each step that the run actually takes holds at its end.  The step
hypothesis may use where in the run the step stands. -/
theorem run_invariant_of_steps (invariant : State → Prop) {start : State} {events : List Event}
    (hstart : invariant start)
    (hstep : ∀ before event after, events = before ++ event :: after →
      invariant (run step start before) → invariant (step (run step start before) event)) :
    invariant (run step start events) :=
  run_induction step (fun _ state ↦ invariant state) hstart hstep

theorem run_invariant_of_mem (invariant : State → Prop) {start : State} {events : List Event}
    (hstart : invariant start)
    (hstep : ∀ state, ∀ event ∈ events, invariant state → invariant (step state event)) :
    invariant (run step start events) := by
  refine run_invariant_of_steps step invariant hstart ?_
  intro before event after hsplit
  exact hstep _ event (by simp [hsplit])

theorem run_invariant (invariant : State → Prop) {start : State} (events : List Event)
    (hstart : invariant start)
    (hstep : ∀ state event, invariant state → invariant (step state event)) :
    invariant (run step start events) :=
  run_invariant_of_mem step invariant hstart fun state event _ ↦ hstep state event

/-- A predicate false at the start and true at the end became true at some step and was not
given up again. -/
theorem exists_last_rise (predicate : State → Prop) {start : State} {events : List Event}
    (hstart : ¬ predicate start) (hend : predicate (run step start events)) :
    ∃ before event after, events = before ++ event :: after ∧
      ¬ predicate (run step start before) ∧ predicate (step (run step start before) event) ∧
      ∀ first second, after = first ++ second →
        predicate (run step (step (run step start before) event) first) := by
  induction events using List.reverseRecOn with
  | nil => exact absurd hend hstart
  | append_singleton events event ih =>
    rw [run_concat] at hend
    by_cases hprevious : predicate (run step start events)
    · obtain ⟨before, other, after, hsplit, hfalse, htrue, hkept⟩ := ih hprevious
      refine ⟨before, other, after ++ [event], by simp [hsplit], hfalse, htrue, ?_⟩
      intro first second happend
      rcases List.eq_nil_or_concat' second with rfl | ⟨initial, last, rfl⟩
      · have hwhole : run step (step (run step start before) other) first =
            step (run step start events) event := by
          rw [List.append_nil] at happend
          rw [← happend, ← run_cons, ← run_append, ← run_concat step, hsplit]
          simp
        rw [hwhole]
        exact hend
      · rw [← List.append_assoc] at happend
        exact hkept first initial (List.append_inj_left' happend rfl)
    · exact ⟨events, event, [], rfl, hprevious, hend, by
        intro first second happend
        obtain ⟨rfl, -⟩ := List.append_eq_nil_iff.mp happend.symm
        exact hend⟩

/-- A predicate false at the start and true at the end became true at some step. -/
theorem exists_rise (predicate : State → Prop) {start : State} {events : List Event}
    (hstart : ¬ predicate start) (hend : predicate (run step start events)) :
    ∃ before event after, events = before ++ event :: after ∧
      ¬ predicate (run step start before) ∧ predicate (step (run step start before) event) := by
  obtain ⟨before, event, after, hsplit, hfalse, htrue, -⟩ :=
    exists_last_rise step predicate hstart hend
  exact ⟨before, event, after, hsplit, hfalse, htrue⟩

end JordyOS.Machine
