import Mathlib.Data.List.Basic

/-!
# Simulation of a machine with outputs

A machine answers every event.  A specification allows some answers and some next states.  When every
step of the machine is allowed by the specification along a relation between their states, every run
is, answers included.
-/

namespace JordyOS.Machine

variable {State Event Output Abstract : Type*}

/-- The answers to a list of events and the state behind it. -/
def answers (step : State → Event → Output × State) (start : State) : List Event → List Output × State
  | [] => ([], start)
  | event :: events =>
    let (output, next) := step start event
    let (outputs, final) := answers step next events
    (output :: outputs, final)

/-- The specification allows these answers and this final state. -/
inductive Allowed (spec : Abstract → Event → Output → Abstract → Prop) :
    Abstract → List Event → List Output → Abstract → Prop
  | nil (a : Abstract) : Allowed spec a [] [] a
  | cons {a b c : Abstract} {event : Event} {output : Output} {events : List Event} {outputs : List Output} :
    spec a event output b → Allowed spec b events outputs c →
      Allowed spec a (event :: events) (output :: outputs) c

/-- Related states stay related, and what the machine answers is allowed. -/
def Simulates (step : State → Event → Output × State) (spec : Abstract → Event → Output → Abstract → Prop)
    (related : State → Abstract → Prop) : Prop :=
  ∀ s a event, related s a →
    ∃ b, spec a event (step s event).1 b ∧ related (step s event).2 b

variable {step : State → Event → Output × State} {spec : Abstract → Event → Output → Abstract → Prop}
  {related : State → Abstract → Prop}

theorem Simulates.answers (h : Simulates step spec related) (events : List Event) {start : State}
    {a : Abstract} (hstart : related start a) :
    ∃ b, Allowed spec a events (answers step start events).1 b ∧
      related (Machine.answers step start events).2 b := by
  induction events generalizing start a with
  | nil => exact ⟨a, .nil a, hstart⟩
  | cons event events ih =>
    obtain ⟨b, hspec, hnext⟩ := h start a event hstart
    obtain ⟨c, hallowed, hfinal⟩ := ih hnext
    exact ⟨c, .cons hspec hallowed, hfinal⟩

end JordyOS.Machine
