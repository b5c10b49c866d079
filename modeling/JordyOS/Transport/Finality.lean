import JordyOS.Transport.Completion
import JordyOS.Transport.Outstanding

/-!
# The final outcome

A failed connection ignores everything.  A finished one still answers the peer, and nothing it reported
changes, with one exception: a reset at the next expected sequence number turns it into a failed one.
-/

namespace JordyOS.Transport

open Machine Net

variable {ρ : Type} (core : LarpCore ρ)

/-- What a connection reports once it has ended. -/
structure Outcome where
  state : TcpState
  error : Option String
  rx : Memory
  rxSize : UInt32
  txOffset : UInt32
  una : UInt32
  delivered : UInt32

def Endpoint.outcome (v : Endpoint) : Outcome :=
  ⟨v.state, v.error, v.receiver.rx, v.receiver.rxSize, v.sender.txOffset, v.sender.una,
    v.sender.delivered⟩

theorem Endpoint.Received.outcome_eq {v w : Endpoint} {x : Segment} (h : Endpoint.Received v x w)
    (hfin : v.receiver.peerFin = true) : w.outcome = v.outcome := by
  cases h with
  | empty => rfl
  | skip => rfl
  | overflow hopen =>
    rw [hfin] at hopen
    cases hopen
  | store hopen =>
    rw [hfin] at hopen
    cases hopen

theorem Endpoint.Acknowledge.outcome_eq {v w : Endpoint} (h : Endpoint.Acknowledge v w) :
    w.outcome = v.outcome := by
  cases h <;> rfl

/-- The call is a segment that the connection takes for a reset by its peer. -/
def Resets (c : Tcp ρ) : Event → Prop
  | .input b size _ =>
    addressed c b size = true ∧ has (b 13) tcpRst = true ∧ netRead32 (b.shift 4) = c.receiveNext
  | .tick _ => False

/-! ## Nothing is outstanding -/

/-- With the FIN acknowledged the queue is empty. -/
theorem Sender.Queue.unused_of_acked {s : Sender} (h : s.Queue) (hacked : s.ownFinAcked = true)
    (i : Fin tcpSlots) : (s.slots i).used = false := by
  rw [Bool.eq_false_iff]
  intro hused
  have hnext := (h.acked_iff.mp hacked).2
  have hslot := h.slot_le hused
  rw [hnext] at hslot
  omega

/-! ## A finished connection -/

section
variable {c : Tcp ρ} (hdone : c.state = .done) (hsound : c.endpoint.Sound) (hsettled : c.endpoint.Settled)
include hdone hsound hsettled

theorem done_unused (i : Fin tcpSlots) : (c.pending i).used = false :=
  (hsound.queue (Or.inr (Or.inr hdone))).unused_of_acked (hsettled hdone).1 i

/-- An accepted segment acknowledges what is acknowledged already, and its payload is not stored. -/
theorem outcome_acceptedInput (b : Memory) (size : ℕ) (now : UInt64)
    (h : c.endpoint.Accepts (readSegment b size)) :
    (acceptedInput core c b (headerLength b) (netRead32 (b.shift 4)) (netRead32 (b.shift 8)) (b 13)
      (UInt32.ofNat (size - headerLength b)) now).endpoint.outcome = c.endpoint.outcome := by
  have hupdate := windowUpdate_endpoint c b size
  have hpending : (windowUpdate c b (netRead32 (b.shift 4)) (netRead32 (b.shift 8))).1.pending =
      c.pending := rfl
  have hqueue := hsound.queue h.live
  obtain ⟨hacked, hfin⟩ := hsettled hdone
  have hnext : c.una = c.next := (hqueue.acked_iff.mp hacked).2
  have hsame : netRead32 (b.shift 8) = c.una := by
    obtain ⟨hlow, hhigh⟩ := h.between hsound
    have heq : distance c.isn (netRead32 (b.shift 8)) = distance c.isn c.una := by
      refine Nat.le_antisymm ?_ hlow
      rw [hnext]
      exact hhigh
    exact distance_inj.mp heq
  unfold acceptedInput
  generalize windowUpdate c b (netRead32 (b.shift 4)) (netRead32 (b.shift 8)) = r at hupdate hpending ⊢
  obtain ⟨d, changed⟩ := r
  simp only at hupdate hpending ⊢
  have hsender : d.sender = c.sender := congrArg Endpoint.sender hupdate
  have huna : d.una = c.una := congrArg Sender.una hsender
  have hdnext : d.next = c.next := congrArg Sender.next hsender
  have hidle : ack core d (netRead32 (b.shift 8)) now = d := by
    have hnone : oldest d = none := by
      refine oldest_eq_none fun i ↦ ?_
      rw [hpending]
      exact done_unused hdone hsound hsettled i
    have hself : before c.una c.una = false := by simp [before]
    unfold ack
    rw [huna, hdnext, hsame, ← hnext, hself, if_neg (by decide), if_pos rfl, hnone]
    rfl
  rw [hidle, ite_self]
  have hsameOutcome : d.endpoint.outcome = c.endpoint.outcome := by rw [hupdate]; rfl
  rw [← hsameOutcome]
  split
  · have hdfin : d.endpoint.receiver.peerFin = true := by
      rw [hupdate]
      exact hfin
    exact (receive_endpoint d b size).outcome_eq hdfin
  · rfl

/-- No segment but a reset changes what a finished connection reported. -/
theorem outcome_input_of_done {b : Memory} {size : ℕ} {now : UInt64}
    (hreset : ¬ Resets c (.input b size now)) :
    (tcpInput core c b size now).endpoint.outcome = c.endpoint.outcome := by
  have hopen : c.state ≠ .synSent := by
    rw [hdone]
    decide
  refine tcpInput_cases core hopen b size now (fun d ↦ d.endpoint.outcome = c.endpoint.outcome) rfl
    (fun _ ↦ rfl) ?_ (outcome_acceptedInput core hdone hsound hsettled b size now)
  intro haddressed hrst hsequence
  exact absurd ⟨haddressed, hrst, hsequence⟩ hreset

omit hsound hsettled in
theorem outcome_tick_of_done (now : UInt64) :
    (tcpTick core c now).endpoint.outcome = c.endpoint.outcome := by
  have hacknowledge := acknowledge_endpoint c
  have hstate : (acknowledge c).state = .done := by
    rw [← hdone]
    exact hacknowledge.state_eq
  unfold tcpTick
  rw [hdone, if_neg (by decide), if_neg (by simp)]
  simp only [hstate, if_true]
  exact hacknowledge.outcome_eq

end

/-! ## A failed connection -/

theorem step_of_failed {c : Tcp ρ} (h : c.state = .failed) (event : Event) : step core c event = c := by
  cases event with
  | input b size now =>
    change tcpInput core c b size now = c
    unfold tcpInput
    split
    · rfl
    · dsimp only
      rw [if_neg (by rw [h]; decide), if_pos (by rw [h]; decide)]
  | tick now =>
    change tcpTick core c now = c
    unfold tcpTick
    rw [if_pos (Or.inr h)]

/-! ## Runs -/

theorem settled_run (calls : List Call) :
    (run (perform core) (zeroed core) calls).endpoint.Settled := by
  refine run_invariant (perform core) (fun c ↦ c.endpoint.Settled) calls (fun h ↦ by cases h) ?_
  intro c call h
  cases call with
  | start =>
    rcases tcpStart_endpoint core _ _ _ _ _ _ _ _ with hfailed | ⟨-, -, hstart⟩
    · intro hdone
      exact absurd (hfailed.symm.trans hdone) (by decide)
    · intro hdone
      have hstate := congrArg Endpoint.state hstart
      exact absurd (hstate.symm.trans hdone) (by simp)
  | event event => exact settled_step core h event

/-- Of a connection that has ended no call changes the outcome, unless it resets a finished one. -/
theorem outcome_final (calls : List Call) (events : List Event)
    (hended : (run (perform core) (zeroed core) calls).state = .done ∨
      (run (perform core) (zeroed core) calls).state = .failed)
    (hquiet : ∀ first event rest, events = first ++ event :: rest →
      (run (step core) (run (perform core) (zeroed core) calls) first).state = .done →
      ¬ Resets (run (step core) (run (perform core) (zeroed core) calls) first) event) :
    (run (step core) (run (perform core) (zeroed core) calls) events).endpoint.outcome =
      (run (perform core) (zeroed core) calls).endpoint.outcome := by
  have hsound := sound_run core calls
  have hsettled := settled_run core calls
  generalize run (perform core) (zeroed core) calls = c at hended hquiet hsound hsettled ⊢
  have hall : (run (step core) c events).endpoint.Sound ∧ (run (step core) c events).endpoint.Settled ∧
      (run (step core) c events).endpoint.outcome = c.endpoint.outcome := by
    refine run_invariant_of_steps (step core) (fun d ↦ d.endpoint.Sound ∧ d.endpoint.Settled ∧
      d.endpoint.outcome = c.endpoint.outcome) ⟨hsound, hsettled, rfl⟩ ?_
    rintro first event rest hsplit ⟨hsound, hsettled, hsame⟩
    refine ⟨sound_step core hsound event, settled_step core hsettled event, ?_⟩
    rw [← hsame]
    have hstate : (run (step core) c first).state = c.state := congrArg Outcome.state hsame
    rcases hended with hdone | hfailed
    · rw [hdone] at hstate
      cases event with
      | input b size now =>
        exact outcome_input_of_done core hstate hsound hsettled (hquiet first _ rest hsplit hstate)
      | tick now => exact outcome_tick_of_done core hstate now
    · rw [step_of_failed core (hstate.trans hfailed)]
  exact hall.2.2

/-! ## A finished transfer -/

/-- A transfer of two bytes, from its start to its end. -/
def finishedTransfer : List Call :=
  .start 1 2 100 (some (Memory.ofList [7, 8])) 2 0 (fun _ _ _ ↦ true) [] :: shortTransfer.map .event

/-- The peer repeats its FIN. -/
def repeatedFin : List Event :=
  [.tick 7000, .input (peerSegment 501 104 (tcpAck ||| tcpFin) 4096 []) 20 8000, .tick 9000]

theorem outcome_final_repeatedFin :
    (run (step steadyCore) (run (perform steadyCore) (zeroed steadyCore) finishedTransfer)
      repeatedFin).endpoint.outcome =
        (run (perform steadyCore) (zeroed steadyCore) finishedTransfer).endpoint.outcome := by
  refine outcome_final steadyCore finishedTransfer repeatedFin (Or.inl rfl) ?_
  intro first event rest hsplit _ hreset
  have hmem : event ∈ repeatedFin := by simp [hsplit]
  simp only [repeatedFin, List.mem_cons, List.not_mem_nil, or_false] at hmem
  rcases hmem with rfl | rfl | rfl
  · exact hreset
  · exact absurd hreset.2.1 (by decide)
  · exact hreset

/-- A reset from the peer turns a finished transfer into a failed one. -/
theorem finishedTransfer_reset :
    (run (perform steadyCore) (zeroed steadyCore) finishedTransfer).state = .done ∧
      (run (perform steadyCore) (zeroed steadyCore) finishedTransfer).error = none ∧
      (tcpInput steadyCore (run (perform steadyCore) (zeroed steadyCore) finishedTransfer)
        (peerSegment 502 104 tcpRst 4096 []) 20 7000).state = .failed ∧
      (tcpInput steadyCore (run (perform steadyCore) (zeroed steadyCore) finishedTransfer)
        (peerSegment 502 104 tcpRst 4096 []) 20 7000).error = some "peer reset" :=
  ⟨rfl, rfl, rfl, rfl⟩

end JordyOS.Transport
