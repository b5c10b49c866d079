import JordyOS.Transport.Timing

/-!
# The transmissions of a run

Every successful call of `transmit` in a run, with the time of the call and the rate of the controller
at that moment.  A property of the transmissions is an invariant of runs: each call is one turn of the
timing and adds at most one transmission.
-/

namespace JordyOS.Transport

open Machine Net

variable {ρ : Type} (core : LarpCore ρ)

/-- A successful transmission of a segment. -/
structure Transmission where
  time : UInt64
  rate : UInt64
  segment : Emission

/-- The segments `transmit` sends in the call that leads from `c` to `d`. -/
def transmissions (c d : Tcp ρ) : List Emission :=
  ((d.context.take (d.context.length - c.context.length)).filter Emission.transmitted).reverse

/-- The transmissions of one call. -/
def transmissionsOf (c : Tcp ρ) (event : Event) : List Transmission :=
  (transmissions c (step core c event)).map fun e ↦ ⟨event.time, c.larp.rate, e⟩

/-- The transmissions of a run, the earliest first. -/
def timeline : Tcp ρ → List Event → List Transmission
  | _, [] => []
  | c, event :: events => transmissionsOf core c event ++ timeline (step core c event) events

theorem timeline_concat (c : Tcp ρ) (events : List Event) (event : Event) :
    timeline core c (events ++ [event]) =
      timeline core c events ++ transmissionsOf core (run (step core) c events) event := by
  induction events generalizing c with
  | nil => simp [timeline]
  | cons first events ih =>
    rw [List.cons_append, timeline, ih, timeline, List.append_assoc, run_cons]

/-- A transmission takes the time of a call. -/
theorem time_of_mem_timeline {c : Tcp ρ} {events : List Event} {x : Transmission}
    (h : x ∈ timeline core c events) : ∃ event ∈ events, event.time = x.time := by
  induction events generalizing c with
  | nil => cases h
  | cons event events ih =>
    rcases List.mem_append.mp h with h | h
    · obtain ⟨e, -, rfl⟩ := List.mem_map.mp h
      exact ⟨event, List.mem_cons_self, rfl⟩
    · obtain ⟨other, hother, htime⟩ := ih h
      exact ⟨other, List.mem_cons_of_mem event hother, htime⟩

variable {core}

/-- The calls are made at times that never decrease. -/
def Clocked (events : List Event) : Prop := events.Pairwise fun e f ↦ e.time ≤ f.time

theorem Clocked.le {before after : List Event} {event : Event}
    (h : Clocked (before ++ event :: after)) : ∀ e ∈ before, e.time ≤ event.time := fun e he ↦
  (List.pairwise_append.mp h).2.2 e he event List.mem_cons_self

theorem transmissions_of_context {c d : Tcp ρ} {sent : List Emission}
    (h : d.context = sent ++ c.context) :
    transmissions c d = (sent.filter Emission.transmitted).reverse := by
  rw [transmissions, h, List.length_append, Nat.add_sub_cancel, List.take_left]

theorem Turn.length_le {m n : Timing} {now : UInt64} {sent : List Emission}
    (h : Turn core m now n sent) : sent.length ≤ 1 := by
  cases h <;> simp

/-- One call is one turn, and its transmissions are those of the turn. -/
theorem Turns.turn {c d : Tcp ρ} {now : UInt64} (h : Turns core c now d) :
    Turn core c.timing now d.timing (transmissions c d) := by
  obtain ⟨sent, hcontext, hturn⟩ := h
  have hsame : (sent.filter Emission.transmitted).reverse = sent.filter Emission.transmitted := by
    have hlength := hturn.length_le
    match sent.filter Emission.transmitted, hlength with
    | [], _ => rfl
    | [_], _ => rfl
  rw [transmissions_of_context hcontext, hsame]
  exact hturn

/-- Induction along a run of a sound connection, for a predicate on the calls, the transmissions and
the state so far. -/
theorem timeline_induction {c : Tcp ρ} (hsound : c.endpoint.Sound) {events : List Event}
    (hclock : Clocked events) (motive : List Event → List Transmission → Tcp ρ → Prop)
    (start : motive [] [] c)
    (turn : ∀ before event d, d = run (step core) c before → d.endpoint.Sound →
      (∀ e ∈ before, e.time ≤ event.time) → (∀ x ∈ timeline core c before, x.time ≤ event.time) →
      Turn core d.timing event.time (step core d event).timing (transmissions d (step core d event)) →
      motive before (timeline core c before) d →
      motive (before ++ [event]) (timeline core c before ++ transmissionsOf core d event)
        (step core d event)) :
    motive events (timeline core c events) (run (step core) c events) := by
  refine run_induction (step core) (fun before d ↦ motive before (timeline core c before) d) start ?_
  intro before event after hsplit ih
  have htime : ∀ e ∈ before, e.time ≤ event.time := (hsplit ▸ hclock).le
  rw [timeline_concat]
  refine turn before event _ rfl (sound_events core hsound before) htime ?_
    (step_turns core (sound_events core hsound before) event).turn ih
  intro x hx
  obtain ⟨e, he, heq⟩ := time_of_mem_timeline core hx
  rw [← heq]
  exact htime e he

theorem Request.connect_sound (core : LarpCore ρ) (r : Request) : (r.connect core).endpoint.Sound :=
  sound_tcpStart core _ _ _ _ _ _ _ _

end JordyOS.Transport
