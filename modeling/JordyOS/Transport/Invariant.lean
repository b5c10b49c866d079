import JordyOS.Transport.Queue
import JordyOS.Transport.Refinement

/-!
# The invariant of the sending half over runs

What the phase of a connection says about its sending half: the opening before the handshake, the
retransmission queue after it.  Each transition of the endpoint keeps the invariant, hence so does
each call of the program, hence it holds in every reachable state.
-/

namespace JordyOS.Transport

open Machine

namespace Endpoint

/-! ## Frames -/

theorem Abandon.sender_eq {v w : Endpoint} {reason : String} (h : Abandon v reason w) :
    w.sender = v.sender := by
  cases h <;> rfl

theorem Abandon.receiver_eq {v w : Endpoint} {reason : String} (h : Abandon v reason w) :
    w.receiver = v.receiver := by
  cases h <;> rfl

theorem Abandon.window_eq {v w : Endpoint} {reason : String} (h : Abandon v reason w) :
    w.window = v.window := by
  cases h <;> rfl

theorem Abandon.ackPending_eq {v w : Endpoint} {reason : String} (h : Abandon v reason w) :
    w.ackPending = v.ackPending := by
  cases h <;> rfl

theorem Abandon.state_eq {v w : Endpoint} {reason : String} (h : Abandon v reason w) :
    w.state = .failed := by
  cases h <;> rfl

theorem Retransmit.sender_eq {v w : Endpoint} (h : Retransmit v w) : w.sender = v.sender := by
  cases h with
  | wait => rfl
  | resend => rfl
  | abandon h => exact h.sender_eq

theorem Retransmit.receiver_eq {v w : Endpoint} (h : Retransmit v w) :
    w.receiver = v.receiver := by
  cases h with
  | wait => rfl
  | resend => rfl
  | abandon h => exact h.receiver_eq

theorem Retransmit.window_eq {v w : Endpoint} (h : Retransmit v w) : w.window = v.window := by
  cases h with
  | wait => rfl
  | resend => rfl
  | abandon h => exact h.window_eq

theorem Retransmit.ackPending_eq {v w : Endpoint} (h : Retransmit v w) :
    w.ackPending = v.ackPending := by
  cases h with
  | wait => rfl
  | resend => rfl
  | abandon h => exact h.ackPending_eq

theorem Retransmit.state_eq {v w : Endpoint} (h : Retransmit v w) :
    w.state = v.state ∨ w.state = .failed := by
  cases h with
  | wait => exact Or.inl rfl
  | resend => exact Or.inl rfl
  | abandon h => exact Or.inr h.state_eq

theorem Acknowledge.sender_eq {v w : Endpoint} (h : Acknowledge v w) : w.sender = v.sender := by
  cases h <;> rfl

theorem Acknowledge.receiver_eq {v w : Endpoint} (h : Acknowledge v w) :
    w.receiver = v.receiver := by
  cases h <;> rfl

theorem Acknowledge.window_eq {v w : Endpoint} (h : Acknowledge v w) : w.window = v.window := by
  cases h <;> rfl

theorem Acknowledge.state_eq {v w : Endpoint} (h : Acknowledge v w) : w.state = v.state := by
  cases h <;> rfl

/-! ## What a transfer is about -/

/-- What `tcp_start` fixes for the life of a connection. -/
structure Transfer where
  localPort : UInt16
  peerPort : UInt16
  isn : UInt32
  txSize : UInt32
  tx : Memory

def transfer (v : Endpoint) : Transfer :=
  ⟨v.localPort, v.peerPort, v.sender.isn, v.sender.txSize, v.sender.tx⟩

theorem Abandon.transfer_eq {v w : Endpoint} {reason : String} (h : Abandon v reason w) :
    w.transfer = v.transfer := by
  cases h <;> rfl

theorem Retransmit.transfer_eq {v w : Endpoint} (h : Retransmit v w) :
    w.transfer = v.transfer := by
  cases h with
  | wait => rfl
  | resend => rfl
  | abandon h => exact h.transfer_eq

theorem Acknowledge.transfer_eq {v w : Endpoint} (h : Acknowledge v w) :
    w.transfer = v.transfer := by
  cases h <;> rfl

theorem Action.transfer_eq {probing : Prop} {v w : Endpoint} (h : Action probing v w) :
    w.transfer = v.transfer := by
  cases h with
  | retransmit h => exact h.transfer_eq
  | syn accepted => cases accepted <;> rfl
  | complete => rfl
  | probe => rfl
  | data slot length accepted => cases accepted <;> rfl
  | fin slot accepted => cases accepted <;> rfl

theorem Tick.transfer_eq {probing : Prop} {v w : Endpoint} (h : Tick probing v w) :
    w.transfer = v.transfer := by
  cases h with
  | rest => rfl
  | deadline _ h => exact h.transfer_eq
  | done _ h => exact h.transfer_eq
  | act _ h haction => exact haction.transfer_eq.trans h.transfer_eq

theorem Input.transfer_eq {v w : Endpoint} {x : Segment} (h : Input v x w) :
    w.transfer = v.transfer := by
  cases h with
  | ignore => rfl
  | refuse => rfl
  | establish => rfl
  | note => rfl
  | reset => rfl
  | stream _ hacked hreceived =>
    have hfirst : ∀ u, Acked v x u → u.transfer = v.transfer := by
      intro u hu
      cases hu with
      | keep => rfl
      | duplicate _ h => exact h.transfer_eq
      | advance => rfl
    refine Eq.trans ?_ (hfirst _ hacked)
    cases hreceived with
    | empty => rfl
    | skip => rfl
    | overflow _ _ _ h => exact h.transfer_eq
    | store => rfl

/-! ## The invariant -/

/-- What the phase of a connection says about its sending half. -/
structure Sound (v : Endpoint) : Prop where
  opening : v.state = .synSent → v.sender.Opening
  queue : v.Live → v.sender.Queue
  unclosed : v.state = .established → v.sender.ownFin = false
  closed : v.state = .closing ∨ v.state = .done → v.sender.ownFin = true

theorem Connected.live {v : Endpoint} (h : v.Connected) : v.Live :=
  h.elim Or.inl fun hclosing ↦ Or.inr (Or.inl hclosing)

theorem Connected.not_synSent {v : Endpoint} (h : v.Connected) : v.state ≠ .synSent := by
  rcases h with h | h <;> simp [h]

theorem Live.not_synSent {v : Endpoint} (h : v.Live) : v.state ≠ .synSent := by
  rcases h with h | h | h <;> simp [h]

/-- Nothing is asked of a connection that has failed or not begun. -/
theorem sound_of_rest {v : Endpoint} (h : v.state = .idle ∨ v.state = .failed) : v.Sound := by
  rcases h with h | h <;> constructor <;> simp [h, Live]

theorem Sound.of_frame {v w : Endpoint} (h : v.Sound) (hsender : w.sender = v.sender)
    (hstate : w.state = v.state ∨ w.state = .failed) : w.Sound := by
  rcases hstate with hstate | hfailed
  · constructor
    · rw [hstate, hsender]
      exact h.opening
    · rw [Live, hstate, hsender]
      exact h.queue
    · rw [hstate, hsender]
      exact h.unclosed
    · rw [hstate, hsender]
      exact h.closed
  · exact sound_of_rest (Or.inr hfailed)

theorem Sound.abandon {v w : Endpoint} {reason : String} (h : v.Sound) (hw : Abandon v reason w) :
    w.Sound := h.of_frame hw.sender_eq (Or.inr hw.state_eq)

theorem Sound.retransmit {v w : Endpoint} (h : v.Sound) (hw : Retransmit v w) : w.Sound :=
  h.of_frame hw.sender_eq hw.state_eq

/-- An open connection stays sound when its sending half becomes another sound queue. -/
theorem sound_of_queue {v : Endpoint} (hstate : v.Connected) (hqueue : v.sender.Queue)
    (hfin : v.state = .closing ↔ v.sender.ownFin = true) : v.Sound where
  opening hsyn := absurd hsyn hstate.not_synSent
  queue _ := hqueue
  unclosed hopen := by
    rw [Bool.eq_false_iff]
    intro hclosed
    rw [hfin.mpr hclosed] at hopen
    cases hopen
  closed hclosed := by
    rcases hclosed with hclosing | hdone
    · exact hfin.mp hclosing
    · rcases hstate with hstate | hstate <;> rw [hdone] at hstate <;> cases hstate

theorem Sound.closing_iff {v : Endpoint} (h : v.Sound) (hstate : v.Connected) :
    v.state = .closing ↔ v.sender.ownFin = true := by
  constructor
  · exact fun hclosing ↦ h.closed (Or.inl hclosing)
  · intro hfin
    refine hstate.resolve_left fun hopen ↦ ?_
    rw [h.unclosed hopen] at hfin
    cases hfin

/-! ## Transitions -/

theorem Acked.receiver_eq {v w : Endpoint} {x : Segment} (h : Acked v x w) :
    w.receiver = v.receiver := by
  cases h with
  | keep => rfl
  | duplicate _ h => exact h.receiver_eq
  | advance => rfl

theorem Acked.not_synSent {v w : Endpoint} {x : Segment} (hlive : v.Live) (hw : Acked v x w) :
    w.state ≠ .synSent := by
  have hv := hlive.not_synSent
  cases hw with
  | keep => exact hv
  | duplicate _ hw =>
    rcases hw.state_eq with hstate | hstate
    · rw [hstate]
      exact hv
    · simp [hstate]
  | advance => exact hv

theorem Tick.receiver_eq {probing : Prop} {v w : Endpoint} (h : Tick probing v w) :
    w.receiver = v.receiver := by
  have haction : ∀ {u y : Endpoint}, Action probing u y → y.receiver = u.receiver := by
    intro u y hy
    cases hy with
    | retransmit hy => exact hy.receiver_eq
    | syn => rfl
    | complete => rfl
    | probe => rfl
    | data => rfl
    | fin => rfl
  cases h with
  | rest => rfl
  | deadline _ h => exact h.receiver_eq
  | done _ h => exact h.receiver_eq
  | act _ h hact => exact (haction hact).trans h.receiver_eq

theorem Sound.action {probing : Prop} {v w : Endpoint} (h : v.Sound) (hw : Action probing v w) :
    w.Sound := by
  cases hw with
  | retransmit hw => exact h.retransmit hw
  | syn accepted hstate hnext =>
    cases accepted with
    | false => exact h.of_frame rfl (Or.inl rfl)
    | true =>
      have hopening := (h.opening hstate).sendSyn hnext
      constructor
      · exact fun _ ↦ hopening
      · intro hlive
        rcases hlive with hlive | hlive | hlive <;> exact absurd (hstate.symm.trans hlive) (by simp)
      · exact fun hopen ↦ absurd (hstate.symm.trans hopen) (by simp)
      · intro hclosed
        rcases hclosed with hclosed | hclosed <;>
          exact absurd (hstate.symm.trans hclosed) (by simp)
  | complete hstate hacked =>
    have hqueue := h.queue hstate.live
    exact
      { opening := fun hsyn ↦ by cases hsyn
        queue := fun _ ↦ hqueue
        unclosed := fun hopen ↦ by cases hopen
        closed := fun _ ↦ (hqueue.acked_iff.mp hacked).1 }
  | probe => exact h.of_frame rfl (Or.inl rfl)
  | data slot length accepted hstate hopen hslot hpos hmss hroom =>
    cases accepted with
    | false => exact h.of_frame rfl (Or.inl rfl)
    | true =>
      have hqueue := h.queue hstate.live
      have hlength : length.toNat ≠ 0 := fun hzero ↦ hpos (UInt32.toNat_inj.mp hzero)
      rw [UInt32.le_iff_toNat_le] at hmss hroom
      have hroom' : (v.sender.txSize - v.sender.txOffset).toNat =
          v.sender.txSize.toNat - v.sender.txOffset.toNat :=
        UInt32.toNat_sub_of_le _ _ (UInt32.le_iff_toNat_le.mpr hqueue.offset_le)
      refine sound_of_queue hstate
        (hqueue.push hslot (by omega) (by simpa using hmss) (by omega) hopen) ?_
      exact h.closing_iff hstate
  | fin slot accepted hstate hopen hslot hall =>
    cases accepted with
    | false => exact h.of_frame rfl (Or.inl rfl)
    | true =>
      have hqueue := h.queue hstate.live
      refine sound_of_queue (Or.inr rfl) (hqueue.close hslot hopen hall) ?_
      exact ⟨fun _ ↦ rfl, fun _ ↦ rfl⟩

theorem Sound.tick {probing : Prop} {v w : Endpoint} (h : v.Sound) (hw : Tick probing v w) :
    w.Sound := by
  cases hw with
  | rest => exact h
  | deadline _ hw => exact h.abandon hw
  | done _ hw => exact h.of_frame hw.sender_eq (Or.inl hw.state_eq)
  | act _ hw haction =>
    exact (h.of_frame hw.sender_eq (Or.inl hw.state_eq)).action haction

/-- The range checks of an accepted segment put its acknowledgement between `una` and `next`. -/
theorem Accepts.between {v : Endpoint} {x : Segment} (h : v.Sound) (hx : v.Accepts x) :
    distance v.sender.isn v.sender.una ≤ distance v.sender.isn x.acknowledgement ∧
      distance v.sender.isn x.acknowledgement ≤ distance v.sender.isn v.sender.next := by
  have hqueue := h.queue hx.live
  exact distance_between hqueue.una_le hqueue.next_lt hx.le_ack hx.ack_le

theorem Sound.acked {v w : Endpoint} {x : Segment} (h : v.Sound) (hx : v.Accepts x)
    (hw : Acked v x w) : w.Sound := by
  cases hw with
  | keep => exact h.of_frame rfl (Or.inl rfl)
  | duplicate _ hw => exact h.of_frame hw.sender_eq hw.state_eq
  | advance =>
    have hqueue := h.queue hx.live
    obtain ⟨hlow, hhigh⟩ := hx.between h
    constructor
    · intro hsyn
      rcases hx.live with hlive | hlive | hlive <;> exact absurd (hlive.symm.trans hsyn) (by simp)
    · exact fun _ ↦ hqueue.acknowledge hlow hhigh
    · exact h.unclosed
    · exact h.closed

theorem Sound.received {v w : Endpoint} {x : Segment} (h : v.Sound) (hw : Received v x w) :
    w.Sound := by
  cases hw with
  | empty => exact h
  | skip => exact h.of_frame rfl (Or.inl rfl)
  | overflow _ _ _ hw => exact h.of_frame hw.sender_eq (Or.inr hw.state_eq)
  | store => exact h.of_frame rfl (Or.inl rfl)

theorem Sound.input {v w : Endpoint} {x : Segment} (h : v.Sound) (hw : Input v x w) : w.Sound := by
  cases hw with
  | ignore => exact h
  | refuse => exact sound_of_rest (Or.inr rfl)
  | establish mss hx hpos hle =>
    have hopening := h.opening hx.state
    refine sound_of_queue (Or.inl rfl) ?_ ?_
    · have hqueue := hopening.establish (hx.next.trans hx.acknowledgement) hpos hle
      rw [Endpoint.establish, hx.acknowledgement]
      exact hqueue
    · have hopen : (v.establish x mss).sender.ownFin = false := hopening.ownFin_eq
      rw [hopen]
      exact ⟨fun hclosing ↦ (by cases hclosing), fun hfin ↦ (by cases hfin)⟩
  | note => exact h.of_frame rfl (Or.inl rfl)
  | reset => exact sound_of_rest (Or.inr rfl)
  | stream hx hacked hreceived => exact (h.acked hx hacked).received hreceived

/-! ## The receiving half before the handshake -/

/-- Before the handshake nothing was received, nothing is to be acknowledged, nothing went wrong. -/
def Fresh (v : Endpoint) : Prop :=
  v.state = .synSent → v.receiver.rxSize = 0 ∧ v.receiver.peerFin = false ∧
    v.ackPending = false ∧ v.error = none

theorem Fresh.action {probing : Prop} {v w : Endpoint} (h : v.Fresh) (hw : Action probing v w) :
    w.Fresh := by
  intro hsyn
  cases hw with
  | retransmit hw =>
    cases hw with
    | wait => exact h hsyn
    | resend => exact h hsyn
    | abandon hw =>
      rw [hw.state_eq] at hsyn
      cases hsyn
  | syn => exact h hsyn
  | complete => cases hsyn
  | probe => exact h hsyn
  | data => exact h hsyn
  | fin slot accepted =>
    cases accepted with
    | false => exact h hsyn
    | true => cases hsyn

theorem Fresh.tick {probing : Prop} {v w : Endpoint} (h : v.Fresh) (hw : Tick probing v w) :
    w.Fresh := by
  cases hw with
  | rest => exact h
  | deadline _ hw =>
    intro hsyn
    rw [hw.state_eq] at hsyn
    cases hsyn
  | done hdone hw =>
    intro hsyn
    rw [hw.state_eq, hdone] at hsyn
    cases hsyn
  | act _ hw haction =>
    refine Fresh.action ?_ haction
    cases hw with
    | none => exact h
    | send accepted hpending =>
      intro hsyn
      have hclear := (h hsyn).2.2.1
      simp [hpending] at hclear

theorem Received.not_synSent {v w : Endpoint} {x : Segment} (hw : Received v x w)
    (hv : v.state ≠ .synSent) : w.state ≠ .synSent := by
  cases hw with
  | empty => exact hv
  | skip => exact hv
  | overflow _ _ _ hw => simp [hw.state_eq]
  | store => exact hv

theorem Fresh.input {v w : Endpoint} {x : Segment} (h : v.Fresh) (hw : Input v x w) : w.Fresh := by
  intro hsyn
  cases hw with
  | ignore => exact h hsyn
  | refuse => cases hsyn
  | establish => cases hsyn
  | note hlive => exact absurd hsyn hlive.not_synSent
  | reset => cases hsyn
  | stream hx hacked hreceived =>
    exact absurd hsyn (hreceived.not_synSent (hacked.not_synSent hx.live))

end Endpoint

/-! ## Runs -/

variable {ρ : Type} (core : LarpCore ρ)

theorem sound_step {c : Tcp ρ} (h : c.endpoint.Sound) (event : Event) :
    (step core c event).endpoint.Sound := by
  cases event with
  | input b size now => exact h.input (tcpInput_endpoint core c b size now)
  | tick now => exact h.tick (tcpTick_endpoint core c now)

theorem sound_start {localPort peerPort : UInt16} {isn : UInt32} {tx : Memory} {txSize : UInt32}
    {context : List Emission} (hsize : txSize.toNat ≤ tcpBuffer.toNat) :
    (Endpoint.start localPort peerPort isn tx txSize context).Sound where
  opening _ :=
    { size_le := hsize
      una_eq := rfl
      next_eq := Or.inl rfl
      txOffset_eq := rfl
      delivered_eq := rfl
      ownFin_eq := rfl
      ownFinAcked_eq := rfl
      syn := fun i hused ↦ by cases hused }
  queue hlive := by simp [Endpoint.Live] at hlive
  unclosed hopen := by cases hopen
  closed hclosed := by simp at hclosed

theorem sound_tcpStart (localPort peerPort : UInt16) (isn : UInt32) (data : Option Memory) (size : ℕ)
    (now : UInt64) (emit : List Emission → Memory → ℕ → Bool) (context : List Emission) :
    (tcpStart core localPort peerPort isn data size now emit context).endpoint.Sound := by
  rcases tcpStart_endpoint core localPort peerPort isn data size now emit context with
    hfailed | ⟨hsize, -, hstart⟩
  · exact Endpoint.sound_of_rest (Or.inr hfailed)
  · rw [hstart]
    refine sound_start ?_
    have hbound : size ≤ 16384 := hsize
    rw [UInt32.toNat_ofNat', Nat.mod_eq_of_lt (by omega)]
    exact hsize

theorem fresh_step {c : Tcp ρ} (h : c.endpoint.Fresh) (event : Event) :
    (step core c event).endpoint.Fresh := by
  cases event with
  | input b size now => exact h.input (tcpInput_endpoint core c b size now)
  | tick now => exact h.tick (tcpTick_endpoint core c now)

theorem transfer_step (c : Tcp ρ) (event : Event) :
    (step core c event).endpoint.transfer = c.endpoint.transfer := by
  cases event with
  | input b size now => exact (tcpInput_endpoint core c b size now).transfer_eq
  | tick now => exact (tcpTick_endpoint core c now).transfer_eq

theorem transfer_run (c : Tcp ρ) (events : List Event) :
    (run (step core) c events).endpoint.transfer = c.endpoint.transfer :=
  run_invariant (step core) (fun d ↦ d.endpoint.transfer = c.endpoint.transfer) events rfl
    fun d event h ↦ (transfer_step core d event).trans h

theorem sound_events {c : Tcp ρ} (h : c.endpoint.Sound) (events : List Event) :
    (run (step core) c events).endpoint.Sound :=
  run_invariant (step core) (fun d ↦ d.endpoint.Sound) events h
    fun _ event hd ↦ sound_step core hd event

/-- In every state a sequence of calls can reach, the phase fits the sending half. -/
theorem sound_run (calls : List Call) :
    (run (perform core) (zeroed core) calls).endpoint.Sound := by
  refine run_invariant (perform core) (fun c ↦ c.endpoint.Sound) calls
    (Endpoint.sound_of_rest (Or.inl rfl)) ?_
  intro c call h
  cases call with
  | start => exact sound_tcpStart core _ _ _ _ _ _ _ _
  | event event => exact sound_step core h event

/-! ## Runs of one connection -/

namespace Request

variable {core} {r : Request}

theorem connect_endpoint (hstart : (r.connect core).state = .synSent) :
    r.size ≤ tcpBuffer.toNat ∧ (r.connect core).endpoint =
      Endpoint.start r.localPort r.peerPort r.isn (Memory.zero.copy 0 r.tx r.size) r.txSize [] := by
  rcases tcpStart_endpoint core r.localPort r.peerPort r.isn r.data r.size r.now r.emit [] with
    hfailed | ⟨hsize, -, heq⟩
  · rw [connect, hfailed] at hstart
    cases hstart
  · exact ⟨hsize, heq⟩

theorem toNat_txSize (hstart : (r.connect core).state = .synSent) : r.txSize.toNat = r.size := by
  have hsize : r.size ≤ 16384 := (connect_endpoint hstart).1
  rw [txSize, UInt32.toNat_ofNat', Nat.mod_eq_of_lt (by omega)]

theorem sound (hstart : (r.connect core).state = .synSent) (events : List Event) :
    (run (step core) (r.connect core) events).endpoint.Sound := by
  refine sound_events core ?_ events
  rw [(connect_endpoint hstart).2]
  refine sound_start ?_
  rw [toNat_txSize hstart]
  exact (connect_endpoint hstart).1

theorem fresh (hstart : (r.connect core).state = .synSent) (events : List Event) :
    (run (step core) (r.connect core) events).endpoint.Fresh := by
  refine run_invariant (step core) (fun c ↦ c.endpoint.Fresh) events ?_
    fun _ event h ↦ fresh_step core h event
  rw [(connect_endpoint hstart).2]
  exact fun _ ↦ ⟨rfl, rfl, rfl, rfl⟩

theorem transfer (hstart : (r.connect core).state = .synSent) (events : List Event) :
    (run (step core) (r.connect core) events).endpoint.transfer =
      ⟨r.localPort, r.peerPort, r.isn, r.txSize, Memory.zero.copy 0 r.tx r.size⟩ := by
  rw [transfer_run, (connect_endpoint hstart).2]
  rfl

theorem isn_eq (hstart : (r.connect core).state = .synSent) (events : List Event) :
    (run (step core) (r.connect core) events).isn = r.isn :=
  congrArg Endpoint.Transfer.isn (transfer hstart events)

theorem txSize_eq (hstart : (r.connect core).state = .synSent) (events : List Event) :
    (run (step core) (r.connect core) events).txSize = r.txSize :=
  congrArg Endpoint.Transfer.txSize (transfer hstart events)

theorem tx_eq (hstart : (r.connect core).state = .synSent) (events : List Event) {i : ℕ}
    (hi : i < r.txSize.toNat) : (run (step core) (r.connect core) events).tx i = r.tx i := by
  have htx : (run (step core) (r.connect core) events).tx = Memory.zero.copy 0 r.tx r.size :=
    congrArg Endpoint.Transfer.tx (transfer hstart events)
  rw [toNat_txSize hstart] at hi
  rw [htx]
  simp [Memory.copy, hi]

end Request

end JordyOS.Transport
