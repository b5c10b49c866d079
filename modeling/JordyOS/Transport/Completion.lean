import JordyOS.Transport.Upload

/-!
# Completion

A connection that is done has had its whole upload and its FIN acknowledged, has the whole download,
and has acknowledged the peer's FIN.  Each fact about the past of a run is found at the step where a
predicate on the state became true.
-/

namespace JordyOS.Transport

open Machine Net

namespace Endpoint

variable {v w : Endpoint} {x : Segment} {probing : Prop}

/-! ## The FIN of the peer -/

/-- A finished connection has both FINs settled. -/
def Settled (v : Endpoint) : Prop :=
  v.state = .done → v.sender.ownFinAcked = true ∧ v.receiver.peerFin = true

theorem Settled.of_frame (h : v.Settled) (hfin : w.sender.ownFinAcked = v.sender.ownFinAcked)
    (hreceiver : w.receiver = v.receiver) (hstate : w.state = v.state ∨ w.state = .failed) :
    w.Settled := by
  intro hdone
  rw [hreceiver, hfin]
  refine h ((hstate.resolve_right fun hfailed ↦ ?_).symm.trans hdone)
  rw [hdone] at hfailed
  cases hfailed

theorem settled_of_connected (hstate : v.Connected) : v.Settled := by
  intro hdone
  rcases hstate with hstate | hstate <;> rw [hdone] at hstate <;> cases hstate

theorem Settled.action (h : v.Settled) (hw : Action probing v w) : w.Settled := by
  cases hw with
  | retransmit hw => exact h.of_frame (by rw [hw.sender_eq]) hw.receiver_eq hw.state_eq
  | syn accepted hstate => exact h.of_frame (by cases accepted <;> rfl) rfl (Or.inl rfl)
  | complete hstate hacked hfin => exact fun _ ↦ ⟨hacked, hfin⟩
  | probe => exact h.of_frame rfl rfl (Or.inl rfl)
  | data slot length accepted hstate => exact settled_of_connected hstate
  | fin slot accepted hstate =>
    refine settled_of_connected ?_
    cases accepted with
    | false => exact hstate
    | true => exact Or.inr rfl

theorem Settled.tick (h : v.Settled) (hw : Tick probing v w) : w.Settled := by
  cases hw with
  | rest => exact h
  | deadline _ hw => exact h.of_frame (by rw [hw.sender_eq]) hw.receiver_eq (Or.inr hw.state_eq)
  | done _ hw => exact h.of_frame (by rw [hw.sender_eq]) hw.receiver_eq (Or.inl hw.state_eq)
  | act _ hw haction =>
    exact (h.of_frame (by rw [hw.sender_eq]) hw.receiver_eq (Or.inl hw.state_eq)).action haction

theorem Settled.acked (h : v.Settled) (hw : Acked v x w) : w.Settled := by
  cases hw with
  | keep => exact h.of_frame rfl rfl (Or.inl rfl)
  | duplicate _ hw => exact h.of_frame (by rw [hw.sender_eq]) hw.receiver_eq hw.state_eq
  | advance =>
    intro hdone
    obtain ⟨hacked, hfin⟩ := h hdone
    exact ⟨by simp [hacked], hfin⟩

theorem Settled.received (h : v.Settled) (hw : Received v x w) : w.Settled := by
  cases hw with
  | empty => exact h
  | skip => exact h.of_frame rfl rfl (Or.inl rfl)
  | overflow _ _ _ hw =>
    intro hdone
    rw [hw.state_eq] at hdone
    cases hdone
  | store =>
    intro hdone
    obtain ⟨hacked, hfin⟩ := h hdone
    exact ⟨hacked, by simp [Receiver.store, hfin]⟩

theorem Settled.input (h : v.Settled) (hw : Input v x w) : w.Settled := by
  cases hw with
  | ignore => exact h
  | refuse => exact h.of_frame rfl rfl (Or.inr rfl)
  | establish => exact settled_of_connected (Or.inl rfl)
  | note => exact h.of_frame rfl rfl (Or.inl rfl)
  | reset => exact h.of_frame rfl rfl (Or.inr rfl)
  | stream _ hacked hreceived => exact (h.acked hacked).received hreceived

/-- Nothing is stored behind the peer's FIN. -/
theorem Received.receiver_eq (h : Received v x w) (hfin : v.receiver.peerFin = true) :
    w.receiver = v.receiver := by
  cases h with
  | empty => rfl
  | skip => rfl
  | overflow hopen => simp [hfin] at hopen
  | store hopen => simp [hfin] at hopen

theorem Input.receiver_eq (h : Input v x w) (hv : v.Fresh) (hfin : v.receiver.peerFin = true) :
    w.receiver = v.receiver := by
  cases h with
  | ignore => rfl
  | refuse => rfl
  | establish mss hx =>
    have hopen := (hv hx.state).2.1
    simp [hfin] at hopen
  | note => rfl
  | reset => rfl
  | stream hx hacked hreceived =>
    exact (hreceived.receiver_eq (by rw [hacked.receiver_eq]; exact hfin)).trans hacked.receiver_eq

/-! ## The steps that matter -/

theorem Tick.ownFinAcked_eq (h : Tick probing v w) :
    w.sender.ownFinAcked = v.sender.ownFinAcked := by
  cases h with
  | rest => rfl
  | deadline _ h => rw [h.sender_eq]
  | done _ h => rw [h.sender_eq]
  | act _ h haction =>
    rw [← h.sender_eq]
    cases haction with
    | retransmit h => rw [h.sender_eq]
    | syn accepted => cases accepted <;> rfl
    | complete => rfl
    | probe => rfl
    | data slot length accepted => cases accepted <;> rfl
    | fin slot accepted => cases accepted <;> rfl

theorem Received.sender_eq (h : Received v x w) : w.sender = v.sender := by
  cases h with
  | empty => rfl
  | skip => rfl
  | overflow _ _ _ h => exact h.sender_eq
  | store => rfl

/-- Our FIN counts as acknowledged by a segment that acknowledges everything sent after it. -/
theorem Input.ack_of_ownFinAcked (h : Input v x w) (hv : v.Sound)
    (hbefore : v.sender.ownFinAcked = false) (hafter : w.sender.ownFinAcked = true) :
    v.Live ∧ v.sender.ownFin = true ∧ x.acknowledgement = v.sender.next := by
  have hsame : w.sender.ownFinAcked ≠ v.sender.ownFinAcked := by simp [hbefore, hafter]
  cases h with
  | ignore => exact absurd rfl hsame
  | refuse => exact absurd rfl hsame
  | establish => exact absurd rfl hsame
  | note => exact absurd rfl hsame
  | reset => exact absurd rfl hsame
  | stream hx hacked hreceived =>
    rw [hreceived.sender_eq] at hafter hsame
    cases hacked with
    | keep => exact absurd rfl hsame
    | duplicate _ h => exact absurd (by rw [h.sender_eq]) hsame
    | advance =>
      obtain ⟨hlow, hhigh⟩ := hx.between hv
      have hqueue := hv.queue hx.live
      rw [Sender.acknowledge_ownFinAcked, hbefore, Bool.false_or,
        hqueue.any_acksFin_iff hlow hhigh] at hafter
      exact ⟨hx.live, hafter.1, hafter.2.2⟩

theorem Input.txOffset_eq (h : Input v x w) : w.sender.txOffset = v.sender.txOffset := by
  cases h with
  | ignore => rfl
  | refuse => rfl
  | establish => rfl
  | note => rfl
  | reset => rfl
  | stream hx hacked hreceived =>
    rw [hreceived.sender_eq]
    cases hacked with
    | keep => rfl
    | duplicate _ h => rw [h.sender_eq]
    | advance => rfl

end Endpoint

/-- The segment carries byte `p` of the upload and `emit` took it. -/
def Carries (isn : UInt32) (tx : Memory) (p : ℕ) (e : Emission) : Prop :=
  e.accepted = true ∧ ∃ j < e.length,
    e.sequence + UInt32.ofNat j = isn + 1 + UInt32.ofNat p ∧ e.payload j = tx p

namespace Endpoint

variable {v w : Endpoint} {x : Segment} {probing : Prop}

/-- The segment with the next bytes of the upload carries each of them. -/
theorem carries_of_push {slot : Fin tcpSlots} {length : UInt32} {p : ℕ} (hqueue : v.sender.Queue)
    (hopen : v.sender.ownFin = false) (hpos : length ≠ 0)
    (hroom : length ≤ v.sender.txSize - v.sender.txOffset)
    (hbefore : ¬ p < v.sender.txOffset.toNat)
    (hafter : p < (v.sender.push slot length).txOffset.toNat) :
    ∃ e ∈ (v.sendSlot ⟨v.sender.next, v.sender.txOffset, length, tcpAck ||| tcpPsh, true⟩
      true).context, Carries v.sender.isn v.sender.tx p e := by
  have hsize : v.sender.txSize.toNat ≤ 16384 := hqueue.size_le
  have hoffset := hqueue.offset_le
  have hnext := hqueue.next_eq
  have hroom' : (v.sender.txSize - v.sender.txOffset).toNat =
      v.sender.txSize.toNat - v.sender.txOffset.toNat :=
    UInt32.toNat_sub_of_le _ _ (UInt32.le_iff_toNat_le.mpr hoffset)
  rw [UInt32.le_iff_toNat_le, hroom'] at hroom
  rw [hopen, Bool.toNat_false] at hnext
  rw [Sender.push_txOffset, UInt32.toNat_add, Nat.mod_eq_of_lt (by omega)] at hafter
  have hj : p - v.sender.txOffset.toNat < length.toNat := by omega
  have hindex : v.sender.txOffset.toNat + (p - v.sender.txOffset.toNat) = p := by omega
  have hp32 : (UInt32.ofNat p).toNat = p := by rw [UInt32.toNat_ofNat', Nat.mod_eq_of_lt (by omega)]
  have hsent : distance v.sender.isn (v.sender.next + UInt32.ofNat (p - v.sender.txOffset.toNat)) =
      1 + p := by
    rw [distance_add_ofNat (by omega)]
    omega
  have hplace : distance v.sender.isn (v.sender.isn + 1 + UInt32.ofNat p) = 1 + p := by
    rw [UInt32.add_assoc, distance_add_left, UInt32.toNat_add, hp32, UInt32.toNat_one,
      Nat.mod_eq_of_lt (by omega)]
  refine ⟨_, List.mem_cons_self, rfl, p - v.sender.txOffset.toNat,
    by rw [emission_length]; exact hj, ?_, ?_⟩
  · rw [emission_sequence]
    exact distance_inj.mp (hsent.trans hplace.symm)
  · rw [emission_payload _ _ _ _ _ _ hj, slotData, if_pos hpos, Memory.shift_apply]
    exact congrArg v.sender.tx hindex

/-- An upload offset is passed only by a segment that carries the byte there. -/
theorem Tick.carries_of_txOffset (h : Tick probing v w) (hv : v.Sound) {p : ℕ}
    (hbefore : ¬ p < v.sender.txOffset.toNat) (hafter : p < w.sender.txOffset.toNat) :
    ∃ e ∈ w.context, Carries v.sender.isn v.sender.tx p e := by
  have hsame : w.sender.txOffset ≠ v.sender.txOffset := by
    intro heq
    rw [heq] at hafter
    exact hbefore hafter
  cases h with
  | rest => exact absurd rfl hsame
  | deadline _ h => exact absurd (by rw [h.sender_eq]) hsame
  | done _ h => exact absurd (by rw [h.sender_eq]) hsame
  | act _ h haction =>
    have hw := hv.of_frame h.sender_eq (Or.inl h.state_eq)
    rw [← h.sender_eq] at hbefore hsame ⊢
    cases haction with
    | retransmit h => exact absurd (by rw [h.sender_eq]) hsame
    | syn accepted => cases accepted <;> exact absurd rfl hsame
    | complete => exact absurd rfl hsame
    | probe => exact absurd rfl hsame
    | data slot length accepted hstate hopen hslot hpos hmss hroom =>
      cases accepted with
      | false => exact absurd rfl hsame
      | true => exact carries_of_push (hw.queue hstate.live) hopen hpos hroom hbefore hafter
    | fin slot accepted => cases accepted <;> exact absurd rfl hsame

/-- The peer's FIN is behind and nothing waits to be acknowledged. -/
def Quiet (v : Endpoint) : Prop := v.receiver.peerFin = true ∧ v.ackPending = false

theorem Input.quiet_of_quiet (h : Input v x w) (hw : w.Quiet) : v.Quiet := by
  obtain ⟨hfin, hpending⟩ := hw
  cases h with
  | ignore => exact ⟨hfin, hpending⟩
  | refuse => exact ⟨hfin, hpending⟩
  | establish => cases hpending
  | note => cases hpending
  | reset => exact ⟨hfin, hpending⟩
  | stream hx hacked hreceived =>
    cases hreceived with
    | empty =>
      obtain ⟨state, error, sender, window, context, -, -, rfl⟩ := hacked.frame
      exact ⟨hfin, hpending⟩
    | skip => cases hpending
    | overflow _ _ _ h =>
      rw [h.ackPending_eq] at hpending
      cases hpending
    | store => cases hpending

theorem Action.ackPending_eq (h : Action probing v w) : w.ackPending = v.ackPending := by
  cases h with
  | retransmit h => exact h.ackPending_eq
  | syn => rfl
  | complete => rfl
  | probe => rfl
  | data => rfl
  | fin => rfl

/-- The pending acknowledgement is cleared by sending it. -/
theorem Acknowledge.sends_of_cleared (h : Acknowledge v w) (hbefore : v.ackPending = true)
    (hafter : w.ackPending = false) :
    w.context = v.emission v.sender.next tcpAck Memory.zero 0 true :: v.context := by
  cases h with
  | none hpending => simp [hbefore] at hpending
  | send accepted =>
    have haccepted : (!accepted) = false := hafter
    rw [Bool.not_eq_false'] at haccepted
    rw [haccepted]
    rfl

/-- A tick after which the peer's FIN is acknowledged, and before which it was not, has sent the
acknowledgement. -/
theorem Tick.acknowledges_of_quiet (h : Tick probing v w) (hv : ¬ v.Quiet) (hw : w.Quiet) :
    v.receiver.peerFin = true ∧ ∃ sent, w.context = sent ++ v.context ∧ ∃ e ∈ sent,
      e.accepted = true ∧ e.acknowledgement = v.receiver.receiveNext := by
  have hfin : v.receiver.peerFin = true := by
    rw [← h.receiver_eq]
    exact hw.1
  have hpending : v.ackPending = true := by
    by_contra hclear
    exact hv ⟨hfin, by simpa using hclear⟩
  refine ⟨hfin, ?_⟩
  cases h with
  | rest => exact absurd hw hv
  | deadline _ h =>
    have hafter := hw.2
    rw [h.ackPending_eq, hpending] at hafter
    cases hafter
  | done _ h =>
    refine ⟨[_], h.sends_of_cleared hpending hw.2, _, List.mem_cons_self, rfl, ?_⟩
    exact emission_acknowledgement _ _ _ _ _ _
  | act hstate h haction =>
    obtain ⟨sent, hcontext, -⟩ := haction.extends (by rw [Connected, h.state_eq]; exact hstate)
    rw [h.sends_of_cleared hpending (by rw [← haction.ackPending_eq]; exact hw.2)] at hcontext
    refine ⟨sent ++ [_], by rw [hcontext, List.append_assoc]; rfl, _,
      List.mem_append_right _ List.mem_cons_self, rfl, ?_⟩
    exact emission_acknowledgement _ _ _ _ _ _

/-! ## The step to done -/

theorem Acked.state_of_done (h : Acked v x w) (hw : w.state = .done) : v.state = .done := by
  cases h with
  | keep => exact hw
  | duplicate _ h =>
    refine (h.state_eq.resolve_right fun hfailed ↦ ?_).symm.trans hw
    rw [hw] at hfailed
    cases hfailed
  | advance => exact hw

theorem Input.state_of_done (h : Input v x w) (hw : w.state = .done) : v.state = .done := by
  cases h with
  | ignore => exact hw
  | refuse => cases hw
  | establish => cases hw
  | note => exact hw
  | reset => cases hw
  | stream hx hacked hreceived =>
    refine hacked.state_of_done ?_
    cases hreceived with
    | empty => exact hw
    | skip => exact hw
    | overflow _ _ _ h =>
      rw [h.state_eq] at hw
      cases hw
    | store => exact hw

theorem Tick.quiet_of_done (h : Tick probing v w) (hv : ¬ v.state = .done) (hw : w.state = .done) :
    w.Quiet := by
  cases h with
  | rest => exact absurd hw hv
  | deadline _ h =>
    rw [h.state_eq] at hw
    cases hw
  | done hdone => exact absurd hdone hv
  | act _ h haction =>
    rw [← h.state_eq] at hv
    cases haction with
    | retransmit h =>
      rcases h.state_eq with hstate | hstate
      · exact absurd (hstate.symm.trans hw) hv
      · rw [hstate] at hw
        cases hw
    | syn => exact absurd hw hv
    | complete _ _ hfin hpending => exact ⟨hfin, hpending⟩
    | probe => exact absurd hw hv
    | data => exact absurd hw hv
    | fin slot accepted =>
      cases accepted with
      | false => exact absurd hw hv
      | true => cases hw

end Endpoint

/-! ## Runs -/

variable {ρ : Type} (core : LarpCore ρ)

theorem settled_step {c : Tcp ρ} (h : c.endpoint.Settled) (event : Event) :
    (step core c event).endpoint.Settled := by
  cases event with
  | input b size now => exact h.input (tcpInput_endpoint core c b size now)
  | tick now => exact h.tick (tcpTick_endpoint core c now)

theorem Request.settled {core : LarpCore ρ} {r : Request}
    (hstart : (r.connect core).state = .synSent) (events : List Event) :
    (run (step core) (r.connect core) events).endpoint.Settled := by
  refine run_invariant (step core) (fun c ↦ c.endpoint.Settled) events ?_
    fun _ event h ↦ settled_step core h event
  rw [(Request.connect_endpoint hstart).2]
  intro hdone
  cases hdone

/-- Once the peer's FIN is in, the receiving half stands still. -/
theorem receiver_run {c : Tcp ρ} (h : c.endpoint.Fresh) (hfin : c.peerFin = true)
    (events : List Event) : (run (step core) c events).receiver = c.receiver := by
  have hboth : (run (step core) c events).endpoint.Fresh ∧
      (run (step core) c events).receiver = c.receiver := by
    refine run_invariant (step core)
      (fun d ↦ d.endpoint.Fresh ∧ d.receiver = c.receiver) events ⟨h, rfl⟩ ?_
    rintro d event ⟨hd, hreceiver⟩
    refine ⟨fresh_step core hd event, ?_⟩
    rw [← hreceiver]
    cases event with
    | input b size now =>
      refine (tcpInput_endpoint core d b size now).receiver_eq hd ?_
      exact (congrArg Receiver.peerFin hreceiver).trans hfin
    | tick now => exact (tcpTick_endpoint core d now).receiver_eq
  exact hboth.2

theorem Sender.Queue.next_of_closed {s : Sender} (h : s.Queue) (hfin : s.ownFin = true) :
    s.next = s.isn + s.txSize + 2 := by
  have hsize : s.txSize.toNat ≤ 16384 := h.size_le
  have hnext := h.next_eq
  rw [hfin, h.closed hfin, Bool.toNat_true] at hnext
  have hplace : distance s.isn (s.isn + s.txSize + 2) = 1 + s.txSize.toNat + 1 := by
    have htwo : (2 : UInt32).toNat = 2 := rfl
    rw [UInt32.add_assoc, distance_add_left, UInt32.toNat_add, htwo, Nat.mod_eq_of_lt (by omega)]
    omega
  exact distance_inj.mp (hnext.trans hplace.symm)

/-- The acknowledgement of our FIN is found in the run. -/
theorem exists_fin_acknowledged {r : Request} (hstart : (r.connect core).state = .synSent)
    {events : List Event} (hacked : (run (step core) (r.connect core) events).ownFinAcked = true) :
    ∃ before b size now after, events = before ++ .input b size now :: after ∧
      addressed (run (step core) (r.connect core) before) b size = true ∧
      (run (step core) (r.connect core) before).ownFin = true ∧
      netRead32 (b.shift 8) = r.isn + r.txSize + 2 := by
  have hopen : ¬ (r.connect core).ownFinAcked = true := by
    have hsender := congrArg Endpoint.sender (Request.connect_endpoint hstart).2
    have hfalse : (r.connect core).ownFinAcked = false := congrArg Sender.ownFinAcked hsender
    rw [hfalse]
    exact Bool.false_ne_true
  obtain ⟨before, event, after, hsplit, hfalse, htrue⟩ :=
    exists_rise (step core) (fun c : Tcp ρ ↦ c.ownFinAcked = true) hopen hacked
  cases event with
  | tick now =>
    exact absurd ((tcpTick_endpoint core _ now).ownFinAcked_eq.symm.trans htrue) hfalse
  | input b size now =>
    by_cases haddressed : addressed (run (step core) (r.connect core) before) b size = true
    · have hsound := Request.sound hstart before
      obtain ⟨hlive, hown, hack⟩ := (tcpInput_endpoint core _ b size now).ack_of_ownFinAcked hsound
        (Bool.eq_false_iff.mpr hfalse) htrue
      refine ⟨before, b, size, now, after, hsplit, haddressed, hown, ?_⟩
      have hnext := (hsound.queue hlive).next_of_closed hown
      rw [← Request.isn_eq hstart before, ← Request.txSize_eq hstart before]
      exact hack.trans hnext
    · have hsame := tcpInput_of_not_addressed core now (Bool.eq_false_iff.mpr haddressed)
      rw [step, hsame] at htrue
      exact absurd htrue hfalse

/-- Each byte passed by the upload offset is found in a segment that `emit` took. -/
theorem exists_carries {r : Request} (hstart : (r.connect core).state = .synSent)
    {events : List Event} {p : ℕ} (hp : p < r.size)
    (hpassed : p < (run (step core) (r.connect core) events).txOffset.toNat) :
    ∃ e ∈ (run (step core) (r.connect core) events).context, Carries r.isn r.tx p e := by
  have hnone : ¬ p < (r.connect core).txOffset.toNat := by
    have hsender := congrArg Endpoint.sender (Request.connect_endpoint hstart).2
    have hzero : (r.connect core).txOffset = 0 := congrArg Sender.txOffset hsender
    rw [hzero]
    exact Nat.not_lt_zero p
  obtain ⟨before, event, after, hsplit, hfalse, htrue⟩ :=
    exists_rise (step core) (fun c : Tcp ρ ↦ p < c.txOffset.toNat) hnone hpassed
  cases event with
  | input b size now =>
    have hsame : (tcpInput core (run (step core) (r.connect core) before) b size now).txOffset = _ :=
      (tcpInput_endpoint core _ b size now).txOffset_eq
    rw [step, hsame] at htrue
    exact absurd htrue hfalse
  | tick now =>
    obtain ⟨e, he, hcarries⟩ := (tcpTick_endpoint core _ now).carries_of_txOffset
      (Request.sound hstart before) hfalse htrue
    refine ⟨e, ?_, ?_⟩
    · rw [hsplit, run_append, run_cons]
      exact mem_context_run core he after
    · obtain ⟨haccepted, j, hj, hsequence, hbyte⟩ := hcarries
      refine ⟨haccepted, j, hj, ?_, ?_⟩
      · rw [← Request.isn_eq hstart before]
        exact hsequence
      · rw [← Request.tx_eq hstart before (by rw [Request.toNat_txSize hstart]; exact hp)]
        exact hbyte

/-- What holds when the transfer is over. -/
structure Completed (r : Request) (events : List Event) : Prop where
  acknowledged : ∃ before b size now after, events = before ++ .input b size now :: after ∧
    addressed (run (step core) (r.connect core) before) b size = true ∧
    (run (step core) (r.connect core) before).ownFin = true ∧
    netRead32 (b.shift 8) = r.isn + r.txSize + 2
  una_eq : (run (step core) (r.connect core) events).una = r.isn + r.txSize + 2
  next_eq : (run (step core) (r.connect core) events).next = r.isn + r.txSize + 2
  delivered_eq : (run (step core) (r.connect core) events).delivered = r.txSize
  idle : ∀ i, ((run (step core) (r.connect core) events).pending i).used = false
  sent : ∀ p < r.size, ∃ e ∈ (run (step core) (r.connect core) events).context,
    Carries r.isn r.tx p e
  peerFin : (run (step core) (r.connect core) events).peerFin = true
  finAcknowledged : ∃ before now after, events = before ++ .tick now :: after ∧
    (run (step core) (r.connect core) before).peerFin = true ∧
    ∃ sent, (run (step core) (r.connect core) (before ++ [.tick now])).context =
        sent ++ (run (step core) (r.connect core) before).context ∧
      ∃ e ∈ sent, e.accepted = true ∧
        e.acknowledgement = (run (step core) (r.connect core) events).receiveNext

/-- The acknowledgement of the peer's FIN is found in the run. -/
theorem exists_fin_acknowledgement {r : Request} (hstart : (r.connect core).state = .synSent)
    {events : List Event} (hquiet : (run (step core) (r.connect core) events).endpoint.Quiet) :
    ∃ before now after, events = before ++ .tick now :: after ∧
      (run (step core) (r.connect core) before).peerFin = true ∧
      ∃ sent, (run (step core) (r.connect core) (before ++ [.tick now])).context =
          sent ++ (run (step core) (r.connect core) before).context ∧
        ∃ e ∈ sent, e.accepted = true ∧
          e.acknowledgement = (run (step core) (r.connect core) before).receiveNext := by
  have hloud : ¬ (r.connect core).endpoint.Quiet := by
    rw [(Request.connect_endpoint hstart).2]
    rintro ⟨hfin, -⟩
    cases hfin
  obtain ⟨before, event, after, hsplit, hfalse, htrue⟩ :=
    exists_rise (step core) (fun c : Tcp ρ ↦ c.endpoint.Quiet) hloud hquiet
  cases event with
  | input b size now =>
    exact absurd ((tcpInput_endpoint core _ b size now).quiet_of_quiet htrue) hfalse
  | tick now =>
    obtain ⟨hfin, sent, hcontext, e, he, haccepted, hack⟩ :=
      (tcpTick_endpoint core _ now).acknowledges_of_quiet hfalse htrue
    exact ⟨before, now, after, hsplit, hfin, sent, by rw [run_concat]; exact hcontext, e, he,
      haccepted, hack⟩

/-- In a run that is done the peer's FIN was acknowledged, and nothing has been received behind it. -/
theorem exists_fin_acknowledgement_of_done {r : Request} (hstart : (r.connect core).state = .synSent)
    {events : List Event} (hdone : (run (step core) (r.connect core) events).state = .done) :
    ∃ before now after, events = before ++ .tick now :: after ∧
      (run (step core) (r.connect core) before).peerFin = true ∧
      ∃ sent, (run (step core) (r.connect core) (before ++ [.tick now])).context =
          sent ++ (run (step core) (r.connect core) before).context ∧
        ∃ e ∈ sent, e.accepted = true ∧
          e.acknowledgement = (run (step core) (r.connect core) events).receiveNext := by
  have hopen : ¬ (r.connect core).state = .done := by
    rw [hstart]
    decide
  obtain ⟨before, event, after, hsplit, hfalse, htrue⟩ :=
    exists_rise (step core) (fun c : Tcp ρ ↦ c.state = .done) hopen hdone
  have hquiet : (run (step core) (r.connect core) (before ++ [event])).endpoint.Quiet := by
    rw [run_concat]
    cases event with
    | input b size now =>
      exact absurd ((tcpInput_endpoint core _ b size now).state_of_done htrue) hfalse
    | tick now => exact (tcpTick_endpoint core _ now).quiet_of_done hfalse htrue
  obtain ⟨first, now, second, hinner, hfirst, sent, hcontext, e, he, haccepted, hack⟩ :=
    exists_fin_acknowledgement core hstart hquiet
  have hevents : events = first ++ .tick now :: (second ++ after) := by
    calc
      events = before ++ [event] ++ after := by rw [hsplit, List.append_assoc]; rfl
      _ = first ++ .tick now :: second ++ after := by rw [hinner]
      _ = first ++ .tick now :: (second ++ after) := by rw [List.append_assoc]; rfl
  have hstill := receiver_run core (Request.fresh hstart first) hfirst
    (.tick now :: (second ++ after))
  rw [← run_append, ← hevents] at hstill
  have hreceiveNext : (run (step core) (r.connect core) events).receiveNext =
      (run (step core) (r.connect core) first).receiveNext :=
    congrArg Receiver.receiveNext hstill
  exact ⟨first, now, second ++ after, hevents, hfirst, sent, hcontext, e, he, haccepted,
    hack.trans hreceiveNext.symm⟩

/-- A transfer that is done was completed by both sides. -/
theorem completed_of_done (r : Request) (hstart : (r.connect core).state = .synSent)
    (events : List Event)
    (hdone : (run (step core) (r.connect core) events).state = .done) :
    Completed core r events := by
  have hsound := Request.sound hstart events
  obtain ⟨hacked, hfin⟩ := Request.settled hstart events hdone
  have hqueue := hsound.queue (Or.inr (Or.inr hdone))
  obtain ⟨hown, hall⟩ := hqueue.acked_iff.mp hacked
  have hnext := hqueue.next_of_closed hown
  have hclosed : (run (step core) (r.connect core) events).txOffset =
      (run (step core) (r.connect core) events).txSize := hqueue.closed hown
  rw [Tcp.endpoint_sender, Tcp.sender_isn, Tcp.sender_txSize, Request.isn_eq hstart,
    Request.txSize_eq hstart] at hnext
  refine
    { acknowledged := exists_fin_acknowledged core hstart hacked
      una_eq := hall.trans hnext
      next_eq := hnext
      delivered_eq := ?_
      idle := ?_
      sent := ?_
      peerFin := hfin
      finAcknowledged := ?_ }
  · have huna := hqueue.una_eq
    have hnext' := hqueue.next_eq
    rw [hacked, hall, hnext', hown, Tcp.endpoint_sender, Tcp.sender_txOffset, hclosed,
      Request.txSize_eq hstart] at huna
    exact UInt32.toNat_inj.mp (by
      rw [Tcp.sender_delivered] at huna
      omega)
  · intro i
    have htiles := hqueue.tiles
    rw [hall] at htiles
    have hnone := htiles.eq_none i
    by_contra hused
    rw [Sender.piece_of_used (Bool.not_eq_false _ ▸ hused)] at hnone
    cases hnone
  · intro p hp
    refine exists_carries core hstart hp ?_
    rw [hclosed, Request.txSize_eq hstart, Request.toNat_txSize hstart]
    exact hp
  · exact exists_fin_acknowledgement_of_done core hstart hdone

/-- An upload of two bytes over a callback that never fails. -/
def shortRequest : Request where
  localPort := 1
  peerPort := 2
  isn := 100
  data := some (Memory.ofList [7, 8])
  size := 2
  now := 0
  emit := fun _ _ _ ↦ true

/-- Handshake, data, FIN, and the peer's FIN with the last acknowledgement. -/
def shortTransfer : List Event :=
  [.tick 0, .input (peerSegment 500 101 (tcpSyn ||| tcpAck) 4096 []) 20 1000, .tick 2000,
    .input (peerSegment 501 103 tcpAck 4096 []) 20 3000, .tick 4000,
    .input (peerSegment 501 104 (tcpAck ||| tcpFin) 4096 []) 20 5000, .tick 6000]

theorem completed_of_done_shortTransfer : Completed steadyCore shortRequest shortTransfer :=
  completed_of_done steadyCore shortRequest rfl shortTransfer rfl

end JordyOS.Transport
