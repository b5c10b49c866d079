import JordyOS.Transport.Segment

/-!
# Flow control

The send limit is `una + peerWindow`.  Both fields come from one segment when the segment passes the
window test.  An acknowledgement that does not pass it moves `una` and keeps the window, and so moves
the limit, whatever window it carries.  As long as no such segment lifts the limit above what the
peer has granted, nothing is sent for the first time above it.
-/

namespace JordyOS.Transport

open Machine Net

/-- A segment occupies sequence number `q` with a payload byte or with its FIN. -/
def Emission.Occupies (e : Emission) (q : UInt32) : Prop :=
  (∃ j < e.length, q = e.sequence + UInt32.ofNat j) ∨
    (has e.flags tcpFin = true ∧ q = e.sequence + UInt32.ofNat e.length)

namespace Endpoint

variable {v w : Endpoint} {x : Segment} {probing : Prop} {e : Emission} {q : UInt32}

/-! ## What a tick sends for the first time -/

/-- The first position, counted from `isn`, that the sender may not use. -/
def limit (v : Endpoint) : ℕ := distance v.sender.isn v.sender.una + v.window.size.toNat

theorem not_occupies_of_empty {seq : UInt32} {flags : UInt8} {data : Memory} {accepted : Bool}
    (hfin : has flags tcpFin = false) :
    ¬ (v.emission seq flags data 0 accepted).Occupies q := by
  rintro (⟨j, hj, -⟩ | ⟨hflags, -⟩)
  · rw [emission_length] at hj
    exact Nat.not_lt_zero j hj
  · rw [emission_flags, hfin] at hflags
    cases hflags

/-- Nothing sent again lies at or behind `next`. -/
theorem Resends.lt_next (h : Resends v e) (hv : v.Sound) (hq : e.Occupies q) :
    distance v.sender.isn q < distance v.sender.isn v.sender.next := by
  cases h with
  | control flags accepted hflags =>
    refine absurd hq (not_occupies_of_empty ?_)
    rcases hflags with rfl | rfl <;> decide
  | queued i accepted hstate hused =>
    rcases hstate with hsyn | hlive
    · have hslot := ((hv.opening hsyn).syn i hused).2.1
      have hfin : has tcpSyn tcpFin = false := by decide
      rw [hslot] at hq
      exact absurd hq (not_occupies_of_empty hfin)
    · have hqueue := hv.queue hlive
      have hslot := hqueue.slot_le hused
      have hnext := hqueue.next_lt
      rcases hqueue.entry i hused with hdata | hfin
      · rcases hq with ⟨j, hj, rfl⟩ | ⟨hflags, -⟩
        · rw [emission_length] at hj
          rw [hdata.size_eq] at hslot
          rw [emission_sequence, distance_add_ofNat (by omega)]
          omega
        · rw [emission_flags, hdata.not_fin] at hflags
          cases hflags
      · rw [hfin.size_eq, UInt32.toNat_one] at hslot
        rcases hq with ⟨j, hj, -⟩ | ⟨-, rfl⟩
        · rw [emission_length, hfin.length_eq] at hj
          exact absurd hj (Nat.not_lt_zero j)
        · rw [emission_sequence, emission_length, hfin.length_eq, UInt32.toNat_zero,
            distance_add_ofNat (by omega)]
          omega

/-- What a tick sends at or behind `next` lies below the limit. -/
theorem Sends.lt_limit (h : Sends probing v e) (hv : v.Sound) (hq : e.Occupies q)
    (hnew : distance v.sender.isn v.sender.next ≤ distance v.sender.isn q) :
    v.Live ∧ distance v.sender.isn q < v.limit := by
  cases h with
  | resend h => exact absurd (h.lt_next hv hq) (by omega)
  | syn => exact absurd hq (not_occupies_of_empty (by decide))
  | probe accepted hprobing hstate =>
    have hqueue := hv.queue hstate.live
    have hnext := hqueue.next_eq
    have hlt := hqueue.next_lt
    rcases hq with ⟨j, hj, rfl⟩ | ⟨hflags, -⟩
    · rw [emission_length, UInt32.toNat_one, Nat.lt_one_iff] at hj
      subst hj
      have hlast : distance v.sender.isn (v.sender.next - 1) =
          distance v.sender.isn v.sender.next - 1 := by
        rw [distance_sub, UInt32.toNat_one]
        omega
      rw [emission_sequence, distance_add_ofNat (by omega)] at hnew
      omega
    · rw [emission_flags] at hflags
      exact absurd hflags (by decide)
  | data length accepted hstate hopen hroom houtstanding hwindow =>
    have hqueue := hv.queue hstate.live
    have hlt := hqueue.next_lt
    have hbetween := toNat_sub_of_le hqueue.una_le
    refine ⟨hstate.live, ?_⟩
    rw [UInt32.lt_iff_toNat_lt, hbetween] at houtstanding
    rw [UInt32.le_iff_toNat_le, UInt32.toNat_sub_of_le _ _ (by
      rw [UInt32.le_iff_toNat_le, hbetween]
      exact houtstanding.le), hbetween, UInt16.toNat_toUInt32] at hwindow
    rw [UInt16.toNat_toUInt32] at houtstanding
    have hsize := v.window.size.toNat_lt
    rcases hq with ⟨j, hj, rfl⟩ | ⟨hflags, -⟩
    · rw [emission_length] at hj
      rw [emission_sequence, distance_add_ofNat (by omega), limit]
      omega
    · rw [emission_flags] at hflags
      exact absurd hflags (by decide)
  | fin accepted hstate hopen houtstanding =>
    have hqueue := hv.queue hstate.live
    have hlt := hqueue.next_lt
    have hbetween := toNat_sub_of_le hqueue.una_le
    refine ⟨hstate.live, ?_⟩
    rw [UInt32.lt_iff_toNat_lt, hbetween, UInt16.toNat_toUInt32] at houtstanding
    rcases hq with ⟨j, hj, -⟩ | ⟨-, rfl⟩
    · rw [emission_length] at hj
      exact absurd hj (Nat.not_lt_zero j)
    · rw [emission_sequence, emission_length, UInt32.toNat_zero, distance_add_ofNat (by omega), limit]
      omega

/-! ## How the limit moves -/

/-- An acknowledgement moves `una` without passing the window test. -/
structure Slides (v : Endpoint) (x : Segment) : Prop where
  accepts : v.Accepts x
  advances : x.acknowledgement ≠ v.sender.una
  older : v.window.newer x = false

theorem not_live_of_failed (h : v.state = .failed) : ¬ v.Live := by
  rintro (hstate | hstate | hstate) <;> rw [h] at hstate <;> cases hstate

theorem limit_of_frame (hsender : w.sender = v.sender) (hwindow : w.window = v.window) :
    w.limit = v.limit := by
  rw [limit, limit, hsender, hwindow]

theorem live_of_state_eq (hstate : w.state = v.state ∨ w.state = .failed) (hw : w.Live) :
    v.Live := by
  rcases hstate with hstate | hfailed
  · rw [Live, hstate] at hw
    exact hw
  · exact absurd hw (not_live_of_failed hfailed)

theorem Retransmit.limit_eq (h : Retransmit v w) (hw : w.Live) : v.Live ∧ w.limit = v.limit :=
  ⟨live_of_state_eq h.state_eq hw, limit_of_frame h.sender_eq h.window_eq⟩

theorem Action.limit_eq (h : Action probing v w) (hw : w.Live) : v.Live ∧ w.limit = v.limit := by
  cases h with
  | retransmit h => exact h.limit_eq hw
  | syn accepted => exact ⟨hw, by cases accepted <;> rfl⟩
  | complete hstate => exact ⟨hstate.live, rfl⟩
  | probe => exact ⟨hw, rfl⟩
  | data slot length accepted => exact ⟨hw, by cases accepted <;> rfl⟩
  | fin slot accepted hstate => exact ⟨hstate.live, by cases accepted <;> rfl⟩

theorem Tick.limit_eq (h : Tick probing v w) (hw : w.Live) : v.Live ∧ w.limit = v.limit := by
  cases h with
  | rest => exact ⟨hw, rfl⟩
  | deadline _ h => exact absurd hw (not_live_of_failed h.state_eq)
  | done _ h =>
    exact ⟨live_of_state_eq (Or.inl h.state_eq) hw, limit_of_frame h.sender_eq h.window_eq⟩
  | act _ h haction =>
    obtain ⟨hlive, hlimit⟩ := haction.limit_eq hw
    exact ⟨live_of_state_eq (Or.inl h.state_eq) hlive,
      hlimit.trans (limit_of_frame h.sender_eq h.window_eq)⟩

/-- No acknowledgement in range lies more than the upload and both flags behind `isn`. -/
theorem Accepts.distance_le (h : v.Accepts x) (hv : v.Sound) :
    distance v.sender.isn x.acknowledgement ≤ v.sender.txSize.toNat + 2 := by
  have hqueue := hv.queue h.live
  have hbetween := h.between hv
  have hnext := hqueue.next_eq
  have hoffset := hqueue.offset_le
  have hfin := Bool.toNat_le v.sender.ownFin
  omega

theorem Acked.limit_cases (h : Acked v x w) (hx : v.Accepts x) (hw : w.Live) :
    (v.Live ∧ w.limit = v.limit) ∨
      w.limit = distance v.sender.isn x.acknowledgement + x.window.toNat ∨
      (v.Slides x ∧ w.limit = distance v.sender.isn x.acknowledgement + v.window.size.toNat) := by
  have hnewer : v.window.newer x = true → (v.window.update x).size = x.window := by
    intro hnewer
    rw [Window.update, if_pos hnewer]
  have holder : v.window.newer x = false → (v.window.update x).size = v.window.size := by
    intro holder
    rw [Window.update, if_neg (by rw [holder]; exact Bool.false_ne_true)]
  have hkept : x.acknowledgement = v.sender.una → w.sender = v.sender →
      w.window = v.window.update x → v.Live →
      (v.Live ∧ w.limit = v.limit) ∨
        w.limit = distance v.sender.isn x.acknowledgement + x.window.toNat := by
    intro hsame hsender hwindow hlive
    rw [limit, limit, hsender, hwindow, hsame]
    cases hcase : v.window.newer x with
    | true => exact Or.inr (by rw [hnewer hcase])
    | false => exact Or.inl ⟨hlive, by rw [holder hcase]⟩
  cases h with
  | keep hsame => exact (hkept hsame rfl rfl hx.live).imp_right Or.inl
  | duplicate hsame h =>
    exact (hkept hsame h.sender_eq h.window_eq hx.live).imp_right Or.inl
  | advance hnew =>
    right
    cases hcase : v.window.newer x with
    | true =>
      left
      rw [limit, hnewer hcase]
      rfl
    | false =>
      right
      rw [limit, holder hcase]
      exact ⟨⟨hx, hnew, hcase⟩, rfl⟩

theorem Received.limit_eq (h : Received v x w) (hw : w.Live) : v.Live ∧ w.limit = v.limit := by
  cases h with
  | empty => exact ⟨hw, rfl⟩
  | skip => exact ⟨hw, rfl⟩
  | overflow _ _ _ h => exact absurd hw (not_live_of_failed h.state_eq)
  | store => exact ⟨hw, rfl⟩

/-- A segment leaves the limit alone, replaces it by its own, or slides it. -/
theorem Input.limit_cases (h : Input v x w) (hv : v.Sound) (hw : w.Live) :
    (v.Live ∧ w.limit = v.limit) ∨
      (distance v.sender.isn x.acknowledgement ≤ v.sender.txSize.toNat + 2 ∧
        w.limit = distance v.sender.isn x.acknowledgement + x.window.toNat) ∨
      (v.Slides x ∧ w.limit = distance v.sender.isn x.acknowledgement + v.window.size.toNat) := by
  cases h with
  | ignore => exact Or.inl ⟨hw, rfl⟩
  | refuse => exact absurd hw (not_live_of_failed rfl)
  | establish mss hx =>
    refine Or.inr (Or.inl ⟨?_, rfl⟩)
    rw [hx.acknowledgement, distance_add_left, UInt32.toNat_one]
    omega
  | note hlive => exact Or.inl ⟨hlive, rfl⟩
  | reset => exact absurd hw (not_live_of_failed rfl)
  | stream hx hacked hreceived =>
    obtain ⟨hlive, hlimit⟩ := hreceived.limit_eq hw
    rw [hlimit]
    exact (hacked.limit_cases hx hlive).imp_right fun hmoved ↦
      hmoved.imp_left fun hgranted ↦ ⟨hx.distance_le hv, hgranted⟩

end Endpoint

/-! ## Runs -/

variable {ρ : Type} (core : LarpCore ρ)

/-- A segment delivered to the connection advertises a right edge at or above `edge`. -/
def Grants (r : Request) (edge : ℕ) (event : Event) : Prop :=
  ∃ b size now, event = .input b size now ∧ addressed (r.connect core) b size = true ∧
    distance r.isn (netRead32 (b.shift 8)) ≤ r.size + 2 ∧
    edge ≤ distance r.isn (netRead32 (b.shift 8)) + (netRead16 (b.shift 14)).toNat

/-- No acknowledgement that leaves the window alone lifts the limit above what was granted. -/
def Respected (r : Request) (events : List Event) : Prop :=
  ∀ before b size now after, events = before ++ .input b size now :: after →
    addressed (run (step core) (r.connect core) before) b size = true →
    (run (step core) (r.connect core) before).endpoint.Slides (readSegment b size) →
    ∃ event ∈ before ++ [.input b size now],
      Grants core r (distance r.isn (netRead32 (b.shift 8)) +
        (run (step core) (r.connect core) before).peerWindow.toNat) event

theorem addressed_congr {c d : Tcp ρ} (h : c.endpoint.transfer = d.endpoint.transfer) (b : Memory)
    (size : ℕ) : addressed c b size = addressed d b size := by
  have hlocal : c.localPort = d.localPort := congrArg Endpoint.Transfer.localPort h
  have hpeer : c.peerPort = d.peerPort := congrArg Endpoint.Transfer.peerPort h
  rw [addressed, addressed, hlocal, hpeer]

theorem addressed_run {r : Request} (hstart : (r.connect core).state = .synSent)
    (events : List Event) (b : Memory) (size : ℕ) :
    addressed (run (step core) (r.connect core) events) b size = addressed (r.connect core) b size :=
  addressed_congr ((Request.transfer hstart events).trans (Request.transfer hstart []).symm) b size

/-- The limit of a live connection has been granted by some segment delivered to it. -/
theorem limit_granted {r : Request} (hstart : (r.connect core).state = .synSent)
    {events : List Event} (hrespected : Respected core r events)
    (hlive : (run (step core) (r.connect core) events).endpoint.Live) :
    ∃ event ∈ events,
      Grants core r (run (step core) (r.connect core) events).endpoint.limit event := by
  revert hlive
  refine run_induction (step core) (fun (past : List Event) (c : Tcp ρ) ↦ c.endpoint.Live →
    ∃ event ∈ past, Grants core r c.endpoint.limit event) ?_ ?_
  · intro hlive
    rw [(Request.connect_endpoint hstart).2] at hlive
    rcases hlive with h | h | h <;> cases h
  · intro before event after hsplit ih hlive
    have hkeep : ∀ edge, (∃ g ∈ before, Grants core r edge g) →
        ∃ g ∈ before ++ [event], Grants core r edge g := by
      rintro edge ⟨g, hg, hgrants⟩
      exact ⟨g, List.mem_append_left _ hg, hgrants⟩
    cases event with
    | tick now =>
      obtain ⟨hbefore, hlimit⟩ := (tcpTick_endpoint core _ now).limit_eq hlive
      rw [step, hlimit]
      exact hkeep _ (ih hbefore)
    | input b size now =>
      by_cases haddressed : addressed (run (step core) (r.connect core) before) b size = true
      · have hsound := Request.sound hstart before
        have hisn := Request.isn_eq hstart before
        have hsize := Request.txSize_eq hstart before
        rcases (tcpInput_endpoint core _ b size now).limit_cases hsound hlive with
          ⟨hbefore, hlimit⟩ | ⟨hbound, hlimit⟩ | ⟨hslides, hlimit⟩
        · rw [step, hlimit]
          exact hkeep _ (ih hbefore)
        · rw [step, hlimit]
          rw [Tcp.endpoint_sender, Tcp.sender_isn, hisn] at hbound ⊢
          rw [Tcp.sender_txSize, hsize, Request.toNat_txSize hstart] at hbound
          rw [addressed_run core hstart] at haddressed
          exact ⟨_, List.mem_append_right _ List.mem_cons_self, b, size, now, rfl, haddressed, hbound,
            le_rfl⟩
        · rw [step, hlimit, Tcp.endpoint_sender, Tcp.sender_isn, hisn]
          exact hrespected before b size now after hsplit haddressed hslides
      · have hsame := tcpInput_of_not_addressed core now (Bool.eq_false_iff.mpr haddressed)
        rw [step, hsame] at hlive ⊢
        exact hkeep _ (ih hlive)

/-- In a run whose acknowledgements respect what was granted, every byte and every FIN that a tick
sends for the first time lies below a right edge some earlier segment advertised. -/
theorem first_sent_below_granted (r : Request) (hstart : (r.connect core).state = .synSent)
    (events : List Event) (hrespected : Respected core r events) :
    ∀ before now after, events = before ++ .tick now :: after →
      ∀ sent, (run (step core) (r.connect core) (before ++ [.tick now])).context =
          sent ++ (run (step core) (r.connect core) before).context →
        ∀ e ∈ sent, ∀ q, e.Occupies q →
          distance r.isn (run (step core) (r.connect core) before).next ≤ distance r.isn q →
          ∃ event ∈ before, Grants core r (distance r.isn q + 1) event := by
  intro before now after hsplit sent hcontext e he q hq hnew
  have hsound := Request.sound hstart before
  have hisn := Request.isn_eq hstart before
  obtain ⟨all, hall, hsends⟩ := (tcpTick_endpoint core (run (step core) (r.connect core) before)
    now).extends
  rw [run_concat] at hcontext
  have heq : sent = all := List.append_cancel_right (hcontext.symm.trans hall)
  have hlimit := (hsends e (heq ▸ he)).lt_limit hsound hq
  rw [Tcp.endpoint_sender, Tcp.sender_isn, hisn] at hlimit
  obtain ⟨hlive, hlt⟩ := hlimit hnew
  have hpast : Respected core r before := by
    intro first b size time second hinner
    rw [hinner, List.append_assoc] at hsplit
    exact hrespected first b size time _ hsplit
  obtain ⟨event, hevent, b, size, time, rfl, haddressed, hbound, hedge⟩ :=
    limit_granted core hstart hpast hlive
  exact ⟨_, hevent, b, size, time, rfl, haddressed, hbound, by omega⟩

/-- An upload of twenty bytes over a callback that never fails. -/
def windowRequest : Request where
  localPort := 1
  peerPort := 2
  isn := 100
  data := some Memory.zero
  size := 20
  now := 0
  emit := fun _ _ _ ↦ true

/-- Ten of twenty bytes are sent within the first window. -/
theorem first_sent_below_granted_handshake :
    let events := [.tick 0, .input (peerSegment 500 101 (tcpSyn ||| tcpAck) 10 []) 20 1000, .tick 2000]
    ∀ before now after, events = before ++ .tick now :: after →
      ∀ sent, (run (step steadyCore) (windowRequest.connect steadyCore)
          (before ++ [.tick now])).context =
          sent ++ (run (step steadyCore) (windowRequest.connect steadyCore) before).context →
        ∀ e ∈ sent, ∀ q, e.Occupies q →
          distance windowRequest.isn
              (run (step steadyCore) (windowRequest.connect steadyCore) before).next ≤
            distance windowRequest.isn q →
          ∃ event ∈ before, Grants steadyCore windowRequest (distance windowRequest.isn q + 1) event := by
  refine first_sent_below_granted steadyCore windowRequest rfl _ ?_
  intro before b size now after hsplit haddressed hslides
  have hbefore : before = [.tick 0] := by
    rcases before with _ | ⟨first, _ | ⟨second, _ | ⟨third, rest⟩⟩⟩ <;> simp at hsplit
    rw [hsplit.1]
  subst hbefore
  rcases hslides.accepts.live with h | h | h <;> cases h

/-! ## A limit above every advertised edge -/

/-- The peer grants ten bytes, which are sent.  Its second data segment arrives first and repeats the
grant; the first one is sent again, acknowledges the ten bytes and closes the window. -/
def slidingWindow : List Event :=
  [.tick 0, .input (peerSegment 500 101 (tcpSyn ||| tcpAck) 10 []) 20 1000, .tick 2000,
    .input (peerSegment 511 101 tcpAck 10 [1, 2, 3]) 23 3000,
    .input (peerSegment 501 111 tcpAck 0 [0, 1, 2, 3, 4, 5, 6, 7, 8, 9]) 30 4000]

/-- The next tick sends a new byte at 111, the right edge of all three segments. -/
theorem first_sent_above_granted : (windowRequest.connect steadyCore).state = .synSent ∧
    ∃ sent, (run (step steadyCore) (windowRequest.connect steadyCore)
        (slidingWindow ++ [.tick 5000])).context =
        sent ++ (run (step steadyCore) (windowRequest.connect steadyCore) slidingWindow).context ∧
      ∃ e ∈ sent, ∃ q, e.Occupies q ∧
        distance windowRequest.isn
            (run (step steadyCore) (windowRequest.connect steadyCore) slidingWindow).next ≤
          distance windowRequest.isn q ∧
        ∀ b size now, .input b size now ∈ slidingWindow →
          before q (netRead32 (b.shift 8) + (netRead16 (b.shift 14)).toUInt32) = false := by
  obtain ⟨sent, hcontext, -⟩ := step_extends steadyCore
    (run (step steadyCore) (windowRequest.connect steadyCore) slidingWindow) (.tick 5000)
  rw [← run_concat (step steadyCore)] at hcontext
  have hbyte : ((run (step steadyCore) (windowRequest.connect steadyCore)
      (slidingWindow ++ [.tick 5000])).context.head?.map fun e ↦ (e.sequence, e.length)) =
      some (111, 10) := by decide +kernel
  have hlength : (run (step steadyCore) (windowRequest.connect steadyCore)
      (slidingWindow ++ [.tick 5000])).context.length =
      (run (step steadyCore) (windowRequest.connect steadyCore) slidingWindow).context.length + 2 := by
    decide +kernel
  have hcontext' : (run (step steadyCore) (windowRequest.connect steadyCore)
      (slidingWindow ++ [.tick 5000])).context = sent ++
      (run (step steadyCore) (windowRequest.connect steadyCore) slidingWindow).context := hcontext
  refine ⟨rfl, sent, hcontext', ?_⟩
  rw [hcontext'] at hbyte hlength
  cases sent with
  | nil => simp at hlength
  | cons e rest =>
    simp only [List.cons_append, List.head?_cons, Option.map_some, Option.some.injEq,
      Prod.mk.injEq] at hbyte
    refine ⟨e, List.mem_cons_self, 111, Or.inl ⟨0, by rw [hbyte.2]; decide, by rw [hbyte.1]; rfl⟩,
      by decide +kernel, ?_⟩
    intro b size now hb
    simp only [slidingWindow, List.mem_cons, List.not_mem_nil, reduceCtorEq, Event.input.injEq,
      false_or, or_false] at hb
    rcases hb with ⟨rfl, -⟩ | ⟨rfl, -⟩ | ⟨rfl, -⟩ <;> rfl

end JordyOS.Transport
