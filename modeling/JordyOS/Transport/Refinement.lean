import JordyOS.Transport.Endpoint

/-!
# The connection refines the endpoint

Every function of the connection is seen as an operation or a transition of its endpoint.  The scan
of `ack` works slot by slot on the array; taken together it is the cumulative acknowledgement of the
sending half.
-/

namespace JordyOS.Transport

open Machine Net

variable {ρ : Type} (core : LarpCore ρ)

/-! ## Start -/

/-- A transfer is refused, or the connection starts from a fixed endpoint. -/
theorem tcpStart_endpoint (localPort peerPort : UInt16) (isn : UInt32) (data : Option Memory) (size : ℕ)
    (now : UInt64) (emit : List Emission → Memory → ℕ → Bool) (context : List Emission) :
    (tcpStart core localPort peerPort isn data size now emit context).state = .failed ∨
      (size ≤ tcpBuffer.toNat ∧ (size = 0 ∨ data.isSome) ∧
        (tcpStart core localPort peerPort isn data size now emit context).endpoint =
          Endpoint.start localPort peerPort isn (Memory.zero.copy 0 (data.getD Memory.zero) size)
            (UInt32.ofNat size) context) := by
  unfold tcpStart
  simp only
  split
  · exact Or.inl rfl
  · rename_i hvalid
    simp only [not_or, not_and_or, not_lt, not_not] at hvalid
    refine Or.inr ⟨hvalid.2.2.1, hvalid.2.2.2.imp_right fun hdata ↦ ?_, rfl⟩
    rwa [Option.isSome_iff_ne_none]

/-! ## Output -/

theorem output_endpoint (c : Tcp ρ) (seq : UInt32) (flags : UInt8) (data : Memory) (size : UInt32) :
    (output c seq flags data size).1.endpoint =
      c.endpoint.send seq flags data size (output c seq flags data size).2 := rfl

theorem tcpAbort_endpoint (c : Tcp ρ) (reason : String) :
    Endpoint.Abandon c.endpoint reason (tcpAbort c reason).endpoint := by
  unfold tcpAbort
  by_cases hstate : c.state = .established ∨ c.state = .closing
  · rw [if_pos hstate]
    exact Endpoint.Abandon.reset _ hstate
  · rw [if_neg hstate]
    exact Endpoint.Abandon.silent

theorem transmit_endpoint (c : Tcp ρ) (s : TcpSegment) (now : UInt64) :
    (transmit core c s now).1.endpoint =
      c.endpoint.sendSlot s.slot (transmit core c s now).2.2 := by
  have houtput := output_endpoint c s.sequence s.flags
    (if s.length ≠ 0 then c.tx.shift s.offset.toNat else Memory.zero) s.length
  unfold transmit
  generalize output c s.sequence s.flags _ s.length = r at houtput ⊢
  obtain ⟨c', sent⟩ := r
  cases sent with
  | false => exact houtput
  | true =>
    by_cases hlength : s.length ≠ 0
    · simp only [Bool.not_true, Bool.false_eq_true, if_false, if_pos hlength]
      exact houtput
    · simp only [Bool.not_true, Bool.false_eq_true, if_false, if_neg hlength]
      exact houtput

theorem transmit_slot (c : Tcp ρ) (s : TcpSegment) (now : UInt64) :
    (transmit core c s now).2.1.slot = s.slot := by
  unfold transmit
  generalize output c s.sequence s.flags _ s.length = r
  obtain ⟨c', sent⟩ := r
  cases sent <;> rfl

/-! ## Timers and loss -/

theorem rttSample_endpoint (c : Tcp ρ) (rtt : UInt32) :
    (rttSample core c rtt).endpoint = c.endpoint := rfl

/-- Storing a segment into a slot, seen from the endpoint. -/
theorem slot_update (pending : Fin tcpSlots → TcpSegment) (i : Fin tcpSlots) (s : TcpSegment) :
    (fun j ↦ (Function.update pending i s j).slot) =
      Function.update (fun j ↦ (pending j).slot) i s.slot := by
  funext j
  by_cases hj : j = i
  · subst hj
    simp
  · simp [Function.update_of_ne hj]

theorem retransmitted_endpoint (c : Tcp ρ) (i : Fin tcpSlots) (s : TcpSegment) (now : UInt64)
    (timeout : Bool) (hslot : s.slot = (c.pending i).slot) :
    (retransmitted c i s now timeout).endpoint = c.endpoint := by
  have hpending : (fun j ↦ ((retransmitted c i s now timeout).pending j).slot) =
      fun j ↦ (c.pending j).slot := by
    unfold retransmitted
    rw [slot_update]
    exact (congrArg _ hslot).trans (Function.update_eq_self i fun j ↦ (c.pending j).slot)
  have hsender : (retransmitted c i s now timeout).sender = c.sender := by
    unfold Tcp.sender
    rw [hpending]
    rfl
  unfold Tcp.endpoint
  rw [hsender]
  rfl

theorem enterRecovery_endpoint (c : Tcp ρ) (now : UInt64) (timeout : Bool) :
    (enterRecovery core c now timeout).endpoint = c.endpoint := rfl

theorem transmit_pending (c : Tcp ρ) (s : TcpSegment) (now : UInt64) :
    (transmit core c s now).1.pending = c.pending := by
  have houtput : (output c s.sequence s.flags
      (if s.length ≠ 0 then c.tx.shift s.offset.toNat else Memory.zero) s.length).1.pending =
      c.pending := rfl
  unfold transmit
  generalize output c s.sequence s.flags _ s.length = r at houtput ⊢
  obtain ⟨c', sent⟩ := r
  cases sent with
  | false => exact houtput
  | true =>
    simp only [Bool.not_true, Bool.false_eq_true, if_false]
    split
    · exact houtput
    · exact houtput

theorem oldest_used {c : Tcp ρ} {i : Fin tcpSlots} (h : oldest c = some i) :
    (c.pending i).used = true := by
  unfold oldest at h
  generalize List.finRange tcpSlots = slots at h
  induction slots using List.reverseRecOn with
  | nil => cases h
  | append_singleton slots slot ih =>
    rw [List.foldl_append, List.foldl_cons, List.foldl_nil, older] at h
    split at h
    · rename_i hslot
      rw [Bool.and_eq_true] at hslot
      cases h
      exact hslot.1
    · exact ih h

theorem loss_endpoint (c : Tcp ρ) (now : UInt64) (timeout : Bool) :
    Endpoint.Retransmit c.endpoint (loss core c now timeout).endpoint := by
  unfold loss
  split
  · exact Endpoint.Retransmit.wait
  · rename_i i hold
    split
    · exact Endpoint.Retransmit.abandon (tcpAbort_endpoint c _)
    · split
      · exact Endpoint.Retransmit.wait
      · have hsent := transmit_endpoint core c (c.pending i) now
        have hslot := transmit_slot core c (c.pending i) now
        have hpending := transmit_pending core c (c.pending i) now
        have hresend : Endpoint.Retransmit c.endpoint
            (transmit core c (c.pending i) now).1.endpoint := by
          rw [hsent]
          exact Endpoint.Retransmit.resend i _ (oldest_used hold)
        generalize transmit core c (c.pending i) now = r at hsent hslot hpending hresend ⊢
        obtain ⟨c', s, sent⟩ := r
        simp only at hslot hpending hresend ⊢
        split
        · exact hresend
        · have hcounted : (retransmitted c' i s now timeout).endpoint = c'.endpoint :=
            retransmitted_endpoint c' i s now timeout (by rw [hslot, hpending])
          split
          · rw [hcounted]
            exact hresend
          · rw [enterRecovery_endpoint, hcounted]
            exact hresend

/-! ## Acknowledgement -/

theorem ackSlot_pending (acknowledgement : UInt32) (a : AckScan) (i : Fin tcpSlots) :
    (fun j ↦ ((ackSlot acknowledgement a i).pending j).slot) =
      Function.update (fun j ↦ (a.pending j).slot) i
        ((a.pending i).slot.acknowledge acknowledgement) := by
  have hsize : sequenceSize (a.pending i) = (a.pending i).slot.size := rfl
  unfold ackSlot Slot.acknowledge
  by_cases hskip : (!(a.pending i).used || !before (a.pending i).sequence acknowledgement) = true
  · have hskip' : (!(a.pending i).slot.used ||
      !before (a.pending i).slot.sequence acknowledgement) = true := hskip
    simp only [if_pos hskip, if_pos hskip']
    exact (Function.update_eq_self i fun j ↦ (a.pending j).slot).symm
  · have hskip' : ¬ (!(a.pending i).slot.used ||
      !before (a.pending i).slot.sequence acknowledgement) = true := hskip
    simp only [if_neg hskip, if_neg hskip', slot_update]
    congr 1
    by_cases hwhole : acknowledgement - (a.pending i).sequence ≥ sequenceSize (a.pending i)
    · have hwhole' : acknowledgement - (a.pending i).slot.sequence ≥ (a.pending i).slot.size := hwhole
      rw [if_pos (decide_eq_true hwhole), if_pos hwhole']
      rfl
    · have hwhole' : ¬ acknowledgement - (a.pending i).slot.sequence ≥ (a.pending i).slot.size :=
        hwhole
      rw [if_neg (by simpa using hwhole), if_neg hwhole']
      rfl

theorem ackSlot_bytes (acknowledgement : UInt32) (a : AckScan) (i : Fin tcpSlots) :
    (ackSlot acknowledgement a i).bytes =
      a.bytes + (a.pending i).slot.ackedBytes acknowledgement := by
  have hsize : sequenceSize (a.pending i) = (a.pending i).slot.size := rfl
  unfold ackSlot Slot.ackedBytes
  simp only [hsize, TcpSegment.slot_sequence, TcpSegment.slot_used, TcpSegment.slot_length]
  split
  · simp
  · by_cases hwhole : acknowledgement - (a.pending i).sequence ≥ (a.pending i).slot.size <;>
      simp [hwhole]

theorem ackSlot_ownFinAcked (acknowledgement : UInt32) (a : AckScan) (i : Fin tcpSlots) :
    (ackSlot acknowledgement a i).ownFinAcked =
      (a.ownFinAcked || (a.pending i).slot.acksFin acknowledgement) := by
  have hsize : sequenceSize (a.pending i) = (a.pending i).slot.size := rfl
  unfold ackSlot Slot.acksFin
  simp only [hsize, TcpSegment.slot_sequence, TcpSegment.slot_used, TcpSegment.slot_flags]
  split
  · rename_i hskip
    rw [Bool.or_eq_true, Bool.not_eq_true', Bool.not_eq_true'] at hskip
    rcases hskip with hused | hbefore
    · simp [hused]
    · simp [hbefore]
  · rename_i hreach
    rw [Bool.or_eq_true, Bool.not_eq_true', Bool.not_eq_true', not_or, Bool.not_eq_false,
      Bool.not_eq_false] at hreach
    rw [hreach.1, hreach.2]
    simp only [Bool.true_and]
    split <;> simp_all

/-- The scan over part of the slots: these are acknowledged, the others are as before. -/
theorem ackScan_foldl (acknowledgement : UInt32) (a : AckScan) {slots : List (Fin tcpSlots)}
    (hnodup : slots.Nodup) :
    (∀ j, ((slots.foldl (ackSlot acknowledgement) a).pending j).slot =
        if j ∈ slots then (a.pending j).slot.acknowledge acknowledgement else (a.pending j).slot) ∧
      (slots.foldl (ackSlot acknowledgement) a).bytes =
        a.bytes + (slots.map fun j ↦ (a.pending j).slot.ackedBytes acknowledgement).sum ∧
      (slots.foldl (ackSlot acknowledgement) a).ownFinAcked =
        (a.ownFinAcked || slots.any fun j ↦ (a.pending j).slot.acksFin acknowledgement) := by
  induction slots generalizing a with
  | nil => simp
  | cons slot slots ih =>
    rw [List.nodup_cons] at hnodup
    obtain ⟨hfresh, hnodup⟩ := hnodup
    have hslot := congrFun (ackSlot_pending acknowledgement a slot)
    have hother : ∀ j ∈ slots, ((ackSlot acknowledgement a slot).pending j).slot =
        (a.pending j).slot := by
      intro j hj
      have hne : j ≠ slot := fun heq ↦ hfresh (heq ▸ hj)
      rw [hslot, Function.update_of_ne hne]
    obtain ⟨hpending, hbytes, hfin⟩ := ih (ackSlot acknowledgement a slot) hnodup
    rw [List.foldl_cons]
    refine ⟨?_, ?_, ?_⟩
    · intro j
      rw [hpending, hslot]
      by_cases hj : j = slot
      · subst hj
        simp [hfresh]
      · simp [hj]
    · rw [hbytes, ackSlot_bytes, List.map_cons, List.sum_cons, UInt32.add_assoc]
      congr 3
      exact List.map_congr_left fun j hj ↦ by rw [hother j hj]
    · rw [hfin, ackSlot_ownFinAcked, List.any_cons, Bool.or_assoc]
      congr 2
      rw [Bool.eq_iff_iff, List.any_eq_true, List.any_eq_true]
      exact exists_congr fun j ↦ and_congr_right fun hj ↦ by rw [hother j hj]

theorem ackScan_spec (c : Tcp ρ) (acknowledgement : UInt32) :
    (∀ i, ((ackScan c acknowledgement).pending i).slot =
        (c.pending i).slot.acknowledge acknowledgement) ∧
      (ackScan c acknowledgement).bytes =
        ((List.finRange tcpSlots).map fun i ↦ (c.pending i).slot.ackedBytes acknowledgement).sum ∧
      (ackScan c acknowledgement).ownFinAcked = (c.ownFinAcked ||
        (List.finRange tcpSlots).any fun i ↦ (c.pending i).slot.acksFin acknowledgement) := by
  have hall : ∀ i, i ∈ List.finRange tcpSlots := List.mem_finRange
  have hnodup := List.nodup_finRange tcpSlots
  unfold ackScan
  generalize List.finRange tcpSlots = slots at hall hnodup ⊢
  obtain ⟨hpending, hbytes, hfin⟩ := ackScan_foldl acknowledgement
    { pending := c.pending, ownFinAcked := c.ownFinAcked, packets := 0, bytes := 0
      retransmitted := false, haveSample := false, sample := {} } hnodup
  refine ⟨?_, ?_, hfin⟩
  · intro i
    rw [hpending, if_pos (hall i)]
  · rw [hbytes, UInt32.zero_add]

theorem acked_endpoint (c : Tcp ρ) (acknowledgement : UInt32) (now : UInt64) :
    (acked c (ackScan c acknowledgement) acknowledgement now).endpoint =
      { c.endpoint with sender := c.sender.acknowledge acknowledgement } := by
  obtain ⟨hpending, hbytes, hfin⟩ := ackScan_spec c acknowledgement
  generalize ackScan c acknowledgement = a at hpending hbytes hfin ⊢
  have hslots : (fun i ↦ (a.pending i).slot) =
      fun i ↦ (c.pending i).slot.acknowledge acknowledgement := funext hpending
  unfold acked Tcp.endpoint Tcp.sender Sender.acknowledge
  simp only [hslots, hbytes, hfin]
  rfl

theorem ackControl_endpoint (c : Tcp ρ) (a : AckScan) (acknowledgement : UInt32) (now : UInt64) :
    (ackControl core c a acknowledgement now).endpoint = c.endpoint := by
  have hsampled : (if a.haveSample && !a.retransmitted
      then rttSample core c (sampledRtt core a now) else c).endpoint = c.endpoint := by
    split
    · exact rttSample_endpoint core c _
    · rfl
  exact hsampled

theorem ack_endpoint_of_ne (c : Tcp ρ) {acknowledgement : UInt32} (now : UInt64)
    (hlow : before acknowledgement c.una = false) (hhigh : before c.next acknowledgement = false)
    (hne : acknowledgement ≠ c.una) :
    (ack core c acknowledgement now).endpoint =
      { c.endpoint with sender := c.sender.acknowledge acknowledgement } := by
  unfold ack
  simp only [hlow, hhigh, Bool.or_self, Bool.false_eq_true, if_false, if_neg hne]
  rw [ackControl_endpoint, acked_endpoint]

theorem ack_endpoint_of_eq (c : Tcp ρ) (now : UInt64) (hhigh : before c.next c.una = false) :
    Endpoint.Retransmit c.endpoint (ack core c c.una now).endpoint := by
  have hlow : before c.una c.una = false := by simp [before]
  unfold ack
  simp only [hlow, hhigh, Bool.or_self, Bool.false_eq_true, if_false, if_true]
  split
  · exact Endpoint.Retransmit.wait
  · split
    · exact loss_endpoint core { c with dupacks := c.dupacks + 1 } now false
    · exact Endpoint.Retransmit.wait

/-! ## Input -/

/-- The negotiated segment size is at least 1 and never above our own. -/
theorem synOptions_le {b : Memory} {header fuel i : ℕ} {mss result : UInt32}
    (hpos : 1 ≤ mss.toNat) (hle : mss.toNat ≤ tcpMss.toNat)
    (h : synOptions b header fuel i mss = some result) :
    1 ≤ result.toNat ∧ result.toNat ≤ tcpMss.toNat := by
  induction fuel generalizing i mss with
  | zero =>
    cases h
    exact ⟨hpos, hle⟩
  | succ fuel ih =>
    simp only [synOptions] at h
    split at h
    · cases h
      exact ⟨hpos, hle⟩
    · split at h
      · cases h
        exact ⟨hpos, hle⟩
      · split at h
        · exact ih hpos hle h
        · split at h
          · cases h
          · split at h
            · split at h
              · cases h
              · rename_i hoption
                rw [not_or] at hoption
                have hoffer : (netRead16 (b.shift (i + 2))).toNat ≠ 0 := fun hzero ↦
                  hoption.2 (UInt16.toNat_inj.mp hzero)
                refine ih ?_ ?_ h <;> rw [toNat_min32, UInt16.toNat_toUInt32]
                · omega
                · omega
            · exact ih hpos hle h

theorem handshakeTimer_endpoint (c : Tcp ρ) (first : TcpSegment) (now : UInt64) :
    (handshakeTimer core c first now).endpoint = c.endpoint := by
  unfold handshakeTimer
  split <;> rfl

theorem answered_endpoint (c : Tcp ρ) (b : Memory) (size : ℕ) (mss : UInt32) :
    { (answered c b (netRead32 (b.shift 4)) (netRead32 (b.shift 8)) mss).endpoint with
      state := .established, ackPending := true } =
      c.endpoint.establish (readSegment b size) mss.toUInt16 := by
  have hsender : (answered c b (netRead32 (b.shift 4)) (netRead32 (b.shift 8)) mss).sender =
      c.sender.establish mss.toUInt16 (readSegment b size).acknowledgement := by
    unfold answered Tcp.sender Sender.establish
    simp only [slot_update]
    rfl
  unfold Tcp.endpoint
  rw [hsender]
  rfl

theorem synSentInput_endpoint (c : Tcp ρ) (b : Memory) (size : ℕ) (now : UInt64)
    (hstate : c.state = .synSent) :
    Endpoint.Input c.endpoint (readSegment b size)
      (synSentInput core c b (headerLength b) (netRead32 (b.shift 4)) (netRead32 (b.shift 8)) (b 13)
        (UInt32.ofNat (size - headerLength b)) now).endpoint := by
  have habort : (tcpAbort c "connection refused").endpoint =
      c.endpoint.fail "connection refused" := by
    unfold tcpAbort
    rw [if_neg (by simp [hstate])]
    rfl
  unfold synSentInput
  split
  · rw [habort]
    exact Endpoint.Input.refuse hstate
  · split
    · exact Endpoint.Input.ignore
    · rename_i hanswer
      simp only [not_or, not_not] at hanswer
      obtain ⟨hflags, hack, hnext, hlength⟩ := hanswer
      split
      · exact Endpoint.Input.ignore
      · rename_i mss hmss
        obtain ⟨hpos, hle⟩ := synOptions_le (by decide) le_rfl hmss
        have hmss16 : mss.toUInt16.toNat = mss.toNat := by
          have hbound : mss.toNat ≤ 536 := hle
          rw [UInt32.toNat_toUInt16]
          omega
        have htimer := handshakeTimer_endpoint core
          (answered c b (netRead32 (b.shift 4)) (netRead32 (b.shift 8)) mss) (c.pending 0) now
        have hanswered := answered_endpoint c b size mss
        rw [← htimer] at hanswered
        generalize handshakeTimer core _ (c.pending 0) now = d at hanswered ⊢
        have hendpoint : ({ d with state := .established, ackPending := true, deliveredUs := now } :
            Tcp ρ).endpoint = c.endpoint.establish (readSegment b size) mss.toUInt16 := hanswered
        rw [hendpoint]
        exact Endpoint.Input.establish _ ⟨hstate, hflags, hack, hnext, hlength⟩
          (by omega) (by omega)

theorem windowUpdate_endpoint (c : Tcp ρ) (b : Memory) (size : ℕ) :
    (windowUpdate c b (netRead32 (b.shift 4)) (netRead32 (b.shift 8))).1.endpoint =
      { c.endpoint with window := c.window.update (readSegment b size) } := by
  have hwindow : (windowUpdate c b (netRead32 (b.shift 4)) (netRead32 (b.shift 8))).1.window =
      c.window.update (readSegment b size) := by
    unfold Tcp.window Window.update
    split
    · rename_i hnewer
      have hupdate : (before c.windowSeq (netRead32 (b.shift 4)) ||
        (c.windowSeq == netRead32 (b.shift 4) &&
          !before (netRead32 (b.shift 8)) c.windowAck)) = true := hnewer
      simp only [windowUpdate, hupdate, if_true]
      rfl
    · rename_i holder
      have hupdate : ¬ (before c.windowSeq (netRead32 (b.shift 4)) ||
        (c.windowSeq == netRead32 (b.shift 4) &&
          !before (netRead32 (b.shift 8)) c.windowAck)) = true := holder
      simp only [windowUpdate, if_neg hupdate]
  unfold Tcp.endpoint
  rw [hwindow]
  rfl

theorem receive_endpoint (c : Tcp ρ) (b : Memory) (size : ℕ) :
    Endpoint.Received c.endpoint (readSegment b size)
      (receive c b (headerLength b) (netRead32 (b.shift 4)) (b 13)
        (UInt32.ofNat (size - headerLength b))).endpoint := by
  have hpayload : (b.shift (overlap c.receiveNext (netRead32 (b.shift 4))
      (UInt32.ofNat (size - headerLength b))).toNat).shift (headerLength b) =
      ((readSegment b size).trim c.receiveNext).payload := by
    rw [Memory.shift_shift, Nat.add_comm, ← Memory.shift_shift]
    rfl
  unfold receive store
  simp only [hpayload]
  split
  · rename_i horder
    rw [Bool.and_eq_true, Bool.not_eq_true', beq_iff_eq] at horder
    split
    · rename_i hlong
      exact Endpoint.Received.overflow horder.1 horder.2 hlong
        (tcpAbort_endpoint { c with ackPending := true } _)
    · rename_i hshort
      exact Endpoint.Received.store horder.1 horder.2 (UInt32.not_lt.mp hshort)
  · rename_i hskip
    refine Endpoint.Received.skip ?_
    rw [Bool.and_eq_true, Bool.not_eq_true', beq_iff_eq, not_and_or, Bool.not_eq_false] at hskip
    exact hskip

/-- What `tcp_input` does with a segment that passed every check: first the acknowledgement, then the
payload. -/
theorem acceptedInput_stages (c : Tcp ρ) (b : Memory) (size : ℕ) (now : UInt64)
    (h : c.endpoint.Accepts (readSegment b size)) :
    ∃ w, Endpoint.Acked c.endpoint (readSegment b size) w ∧ Endpoint.Received w (readSegment b size)
      (acceptedInput core c b (headerLength b) (netRead32 (b.shift 4)) (netRead32 (b.shift 8)) (b 13)
        (UInt32.ofNat (size - headerLength b)) now).endpoint := by
  have hupdate := windowUpdate_endpoint c b size
  unfold acceptedInput
  generalize windowUpdate c b (netRead32 (b.shift 4)) (netRead32 (b.shift 8)) = r at hupdate ⊢
  obtain ⟨c', changed⟩ := r
  simp only at hupdate ⊢
  have hsender : c'.sender = c.sender := congrArg Endpoint.sender hupdate
  have huna : c'.una = c.una := congrArg Sender.una hsender
  have hnext : c'.next = c.next := congrArg Sender.next hsender
  have hacked : Endpoint.Acked c.endpoint (readSegment b size)
      (if netRead32 (b.shift 8) ≠ c'.una ∨ (UInt32.ofNat (size - headerLength b) = 0 ∧
          !has (b 13) tcpFin ∧ !changed)
        then ack core c' (netRead32 (b.shift 8)) now else c').endpoint := by
    by_cases hne : netRead32 (b.shift 8) ≠ c'.una
    · rw [if_pos (Or.inl hne), ack_endpoint_of_ne core c' now (by rw [huna]; exact h.le_ack)
        (by rw [hnext]; exact h.ack_le) hne, hupdate, hsender]
      exact Endpoint.Acked.advance (by rw [huna] at hne; exact hne)
    · rw [not_not] at hne
      have hsame : (readSegment b size).acknowledgement = c.endpoint.sender.una := hne.trans huna
      split
      · refine Endpoint.Acked.duplicate hsame ?_
        have hloss := ack_endpoint_of_eq core c' now
          (by rw [hnext, ← hne]; exact h.ack_le)
        rw [hupdate] at hloss
        rw [hne]
        exact hloss
      · rw [hupdate]
        exact Endpoint.Acked.keep hsame
  generalize (if netRead32 (b.shift 8) ≠ c'.una ∨ (UInt32.ofNat (size - headerLength b) = 0 ∧
      !has (b 13) tcpFin ∧ !changed) then ack core c' (netRead32 (b.shift 8)) now else c') = d
      at hacked ⊢
  refine ⟨d.endpoint, hacked, ?_⟩
  split
  · exact receive_endpoint d b size
  · rename_i hempty
    rw [not_or, not_not, Bool.not_eq_true] at hempty
    exact Endpoint.Received.empty hempty.1 hempty.2

theorem acceptedInput_endpoint (c : Tcp ρ) (b : Memory) (size : ℕ) (now : UInt64)
    (h : c.endpoint.Accepts (readSegment b size)) :
    Endpoint.Input c.endpoint (readSegment b size)
      (acceptedInput core c b (headerLength b) (netRead32 (b.shift 4)) (netRead32 (b.shift 8)) (b 13)
        (UInt32.ofNat (size - headerLength b)) now).endpoint := by
  obtain ⟨w, hacked, hreceived⟩ := acceptedInput_stages core c b size now h
  exact Endpoint.Input.stream h hacked hreceived

theorem streamInput_endpoint (c : Tcp ρ) (b : Memory) (size : ℕ) (now : UInt64)
    (hlive : c.endpoint.Live) :
    Endpoint.Input c.endpoint (readSegment b size)
      (streamInput core c b (headerLength b) (netRead32 (b.shift 4)) (netRead32 (b.shift 8)) (b 13)
        (UInt32.ofNat (size - headerLength b)) now).endpoint := by
  unfold streamInput
  split
  · split
    · exact Endpoint.Input.reset hlive
    · exact Endpoint.Input.note hlive
  · rename_i hreset
    split
    · exact Endpoint.Input.note hlive
    · split
      · exact Endpoint.Input.ignore
      · rename_i hflags
        split
        · exact Endpoint.Input.note hlive
        · rename_i hacceptable
          split
          · exact Endpoint.Input.note hlive
          · rename_i hhigh
            split
            · exact Endpoint.Input.ignore
            · rename_i hlow
              exact acceptedInput_endpoint core c b size now
                { live := hlive
                  noReset := Bool.eq_false_iff.mpr hreset
                  noSyn := by simp_all [readSegment]
                  isAck := by simp_all [readSegment]
                  acceptable := by
                    rw [Bool.not_eq_true', Bool.not_eq_false] at hacceptable
                    exact hacceptable
                  ack_le := Bool.eq_false_iff.mpr hhigh
                  le_ack := Bool.eq_false_iff.mpr hlow }

/-- A segment that is not for this connection changes nothing. -/
theorem tcpInput_of_not_addressed {c : Tcp ρ} {b : Memory} {size : ℕ} (now : UInt64)
    (h : addressed c b size = false) : tcpInput core c b size now = c := by
  simp [tcpInput, h]

theorem tcpInput_endpoint (c : Tcp ρ) (b : Memory) (size : ℕ) (now : UInt64) :
    Endpoint.Input c.endpoint (readSegment b size) (tcpInput core c b size now).endpoint := by
  unfold tcpInput
  split
  · exact Endpoint.Input.ignore
  · simp only
    split
    · rename_i hstate
      exact synSentInput_endpoint core c b size now hstate
    · split
      · exact Endpoint.Input.ignore
      · rename_i hstate
        refine streamInput_endpoint core c b size now ?_
        simp only [not_and_or, not_not] at hstate
        exact hstate

/-- After the handshake a segment is ignored, answered, taken for a reset, or accepted.  What holds in
each case holds of the call. -/
theorem tcpInput_cases {c : Tcp ρ} (hopen : c.state ≠ .synSent) (b : Memory) (size : ℕ) (now : UInt64)
    (motive : Tcp ρ → Prop) (ignored : motive c)
    (noted : ∀ count, motive { c with ackPending := true, invalidAcks := count })
    (reset : addressed c b size = true → has (b 13) tcpRst = true →
      netRead32 (b.shift 4) = c.receiveNext →
      motive { c with state := .failed, error := some "peer reset" })
    (accepted : c.endpoint.Accepts (readSegment b size) →
      motive (acceptedInput core c b (headerLength b) (netRead32 (b.shift 4)) (netRead32 (b.shift 8))
        (b 13) (UInt32.ofNat (size - headerLength b)) now)) :
    motive (tcpInput core c b size now) := by
  unfold tcpInput
  split
  · exact ignored
  rename_i haddressed
  rw [Bool.not_eq_true', Bool.not_eq_false] at haddressed
  simp only
  split
  · exact ignored
  rename_i hlive
  simp only [not_and_or, not_not] at hlive
  unfold streamInput
  split
  · rename_i hreset
    split
    · rename_i hsequence
      exact reset haddressed hreset hsequence
    · exact noted c.invalidAcks
  rename_i hreset
  split
  · exact noted c.invalidAcks
  split
  · exact ignored
  rename_i hflags
  split
  · exact noted c.invalidAcks
  rename_i hacceptable
  split
  · exact noted _
  rename_i hhigh
  split
  · exact ignored
  rename_i hlow
  exact accepted
    { live := hlive
      noReset := Bool.eq_false_iff.mpr hreset
      noSyn := by simp_all [readSegment]
      isAck := by simp_all [readSegment]
      acceptable := by
        rw [Bool.not_eq_true', Bool.not_eq_false] at hacceptable
        exact hacceptable
      ack_le := Bool.eq_false_iff.mpr hhigh
      le_ack := Bool.eq_false_iff.mpr hlow }

/-! ## Tick -/

/-- `emit` accepts the acknowledgement a tick sends first, or there is none to send. -/
def acknowledges (c : Tcp ρ) : Bool := !c.ackPending || (output c c.next tcpAck Memory.zero 0).2

/-- A tick passes all the branches before the zero-window probe. -/
structure Probes (c : Tcp ρ) (now : UInt64) : Prop where
  connected : c.state = .established ∨ c.state = .closing
  inTime : ¬ now - c.startedUs > 120000000
  timer : timerDue c now = false
  unfinished : (c.ownFinAcked && c.peerFin && acknowledges c) = false
  due : probeDue c now = true

theorem acknowledge_eq (c : Tcp ρ) :
    ∃ context, acknowledge c = { c with ackPending := !acknowledges c, context := context } := by
  unfold acknowledge acknowledges
  cases hpending : c.ackPending with
  | false =>
    refine ⟨c.context, ?_⟩
    simp only [Bool.false_eq_true, if_false, Bool.not_false, Bool.true_or, Bool.not_true]
    rw [← hpending]
  | true => exact ⟨_, rfl⟩

theorem acknowledge_endpoint (c : Tcp ρ) :
    Endpoint.Acknowledge c.endpoint (acknowledge c).endpoint := by
  unfold acknowledge
  split
  · rename_i hpending
    exact Endpoint.Acknowledge.send _ hpending
  · rename_i hpending
    exact Endpoint.Acknowledge.none (Bool.eq_false_iff.mpr hpending)

theorem inflight_eq_zero {c : Tcp ρ} (h : inflight c = 0) (i : Fin tcpSlots) :
    (c.pending i).used = false := by
  have hcount : ∀ slots : List (Fin tcpSlots), ∀ n : UInt32, n.toNat + slots.length < 2 ^ 32 →
      (slots.foldl (fun n i ↦ if (c.pending i).used then n + 1 else n) n).toNat =
        n.toNat + slots.countP fun i ↦ (c.pending i).used := by
    intro slots
    induction slots with
    | nil => simp
    | cons slot slots ih =>
      intro n hn
      rw [List.length_cons] at hn
      rw [List.foldl_cons, List.countP_cons]
      cases hused : (c.pending slot).used with
      | false =>
        simpa [hused] using ih n (by omega)
      | true =>
        have hsucc : (n + 1).toNat = n.toNat + 1 := by
          rw [UInt32.toNat_add, UInt32.toNat_one, Nat.mod_eq_of_lt (by omega)]
        have := ih (n + 1) (by omega)
        simp only [if_true]
        omega
  have hall : ∀ j, j ∈ List.finRange tcpSlots := List.mem_finRange
  have hlength : (List.finRange tcpSlots).length = 16 := List.length_finRange
  unfold inflight at h
  generalize List.finRange tcpSlots = slots at h hall hlength
  have hzero := hcount slots 0 (by rw [UInt32.toNat_zero]; omega)
  rw [h, UInt32.toNat_zero, Nat.zero_add, eq_comm, List.countP_eq_zero] at hzero
  exact Bool.eq_false_iff.mpr (hzero i (hall i))

theorem freeSlot_unused {c : Tcp ρ} {slot : Fin tcpSlots} (h : freeSlot c = some slot) :
    (c.pending slot).used = false := by
  have := List.find?_some h
  simpa using this

theorem enqueue_data (c : Tcp ρ) (slot : Fin tcpSlots) (s : TcpSegment) (idle : Bool) (now : UInt64)
    (length : UInt32) (hslot : s.slot = ⟨c.next, c.txOffset, length, tcpAck ||| tcpPsh, true⟩) :
    (enqueue c slot s idle now).endpoint =
      { c.endpoint with sender := c.sender.push slot length } := by
  have hflags : s.flags = tcpAck ||| tcpPsh := congrArg Slot.flags hslot
  have hlength : s.length = length := congrArg Slot.length hslot
  have hfin : has (tcpAck ||| tcpPsh) tcpFin = false := by decide
  unfold enqueue Tcp.endpoint Tcp.sender Sender.push
  simp only [hflags, hlength, hfin, slot_update, hslot, Bool.false_eq_true, if_false,
    UInt32.add_zero]
  rfl

theorem enqueue_fin (c : Tcp ρ) (slot : Fin tcpSlots) (s : TcpSegment) (idle : Bool) (now : UInt64)
    (hslot : s.slot = ⟨c.next, c.txOffset, 0, tcpAck ||| tcpFin, true⟩) :
    (enqueue c slot s idle now).endpoint =
      { c.endpoint with sender := c.sender.close slot, state := .closing } := by
  have hflags : s.flags = tcpAck ||| tcpFin := congrArg Slot.flags hslot
  have hlength : s.length = 0 := congrArg Slot.length hslot
  have hfin : has (tcpAck ||| tcpFin) tcpFin = true := by decide
  unfold enqueue Tcp.endpoint Tcp.sender Sender.close
  simp only [hflags, hlength, hfin, slot_update, hslot, if_true, UInt32.add_zero]
  rfl

theorem sendSegment_endpoint (c : Tcp ρ) (slot : Fin tcpSlots) (idle : Bool) (now : UInt64)
    (probing : Prop) (hstate : c.endpoint.Connected) (hopen : c.ownFin = false)
    (hslot : (c.pending slot).used = false)
    (houtstanding : c.next - c.una < c.peerWindow.toUInt32) :
    Endpoint.Action probing c.endpoint (sendSegment core c slot idle now).endpoint := by
  unfold sendSegment
  simp only
  split
  · exact Endpoint.Action.retransmit Endpoint.Retransmit.wait
  · rename_i hready
    have hsent := transmit_endpoint core c
      { nextSegment c with
        flags := if (nextSegment c).length = 0 then tcpAck ||| tcpFin else (nextSegment c).flags } now
    have hsegment := transmit_slot core c
      { nextSegment c with
        flags := if (nextSegment c).length = 0 then tcpAck ||| tcpFin else (nextSegment c).flags } now
    generalize transmit core c _ now = r at hsent hsegment ⊢
    obtain ⟨c', s, sent⟩ := r
    simp only at hsent hsegment ⊢
    have hsender : c'.sender = c.sender := congrArg Endpoint.sender hsent
    have hnext : c'.next = c.next := congrArg Sender.next hsender
    have hoffset : c'.txOffset = c.txOffset := congrArg Sender.txOffset hsender
    by_cases hlength : (nextSegment c).length = 0
    · have hslot' : s.slot = ⟨c.next, c.txOffset, 0, tcpAck ||| tcpFin, true⟩ := by
        rw [hsegment, if_pos hlength]
        unfold TcpSegment.slot
        rw [hlength]
        rfl
      rw [not_and_or, not_or, not_not, not_not] at hready
      obtain ⟨hall, hidle⟩ := hready.resolve_left (not_not.mpr hlength)
      rw [← hsegment, hslot'] at hsent
      cases sent with
      | false =>
        rw [if_neg Bool.false_ne_true, hsent]
        exact Endpoint.Action.fin slot false hstate hopen hslot hall
          (fun i ↦ inflight_eq_zero hidle i) houtstanding
      | true =>
        rw [if_pos rfl, enqueue_fin c' slot s idle now (by rw [hslot', hnext, hoffset]), hsent,
          hsender]
        exact Endpoint.Action.fin slot true hstate hopen hslot hall
          (fun i ↦ inflight_eq_zero hidle i) houtstanding
    · have hslot' : s.slot = ⟨c.next, c.txOffset, (nextSegment c).length, tcpAck ||| tcpPsh, true⟩ := by
        rw [hsegment, if_neg hlength]
        rfl
      have hbounds : (nextSegment c).length.toNat = min c.mss.toUInt32.toNat
          (min (c.txSize - c.txOffset).toNat (c.peerWindow.toUInt32 - (c.next - c.una)).toNat) := by
        simp [nextSegment]
      have hmss : (nextSegment c).length ≤ c.mss.toUInt32 := by
        rw [UInt32.le_iff_toNat_le]
        omega
      have hroom : (nextSegment c).length ≤ c.txSize - c.txOffset := by
        rw [UInt32.le_iff_toNat_le]
        omega
      have hwindow : (nextSegment c).length ≤ c.peerWindow.toUInt32 - (c.next - c.una) := by
        rw [UInt32.le_iff_toNat_le]
        omega
      rw [← hsegment, hslot'] at hsent
      cases sent with
      | false =>
        rw [if_neg Bool.false_ne_true, hsent]
        exact Endpoint.Action.data slot _ false hstate hopen hslot hlength hmss hroom houtstanding
          hwindow
      | true =>
        rw [if_pos rfl, enqueue_data c' slot s idle now _ (by rw [hslot', hnext, hoffset]), hsent,
          hsender]
        exact Endpoint.Action.data slot _ true hstate hopen hslot hlength hmss hroom houtstanding
          hwindow

theorem sendNext_endpoint (c : Tcp ρ) (now : UInt64) (probing : Prop)
    (hstate : c.endpoint.Connected) :
    Endpoint.Action probing c.endpoint (sendNext core c now).endpoint := by
  have hwait : Endpoint.Action probing c.endpoint c.endpoint :=
    Endpoint.Action.retransmit Endpoint.Retransmit.wait
  unfold sendNext
  split
  · exact hwait
  · rename_i hready
    rw [not_or] at hready
    split
    · exact hwait
    · rename_i houtstanding
      split
      · exact hwait
      · rename_i slot hslot
        exact sendSegment_endpoint core (startFlight c now) slot _ now probing hstate
          (Bool.eq_false_iff.mpr hready.1) (freeSlot_unused hslot) (UInt32.not_le.mp houtstanding)

theorem sendSyn_endpoint (c : Tcp ρ) (now : UInt64) (probing : Prop)
    (hstate : c.state = .synSent) :
    Endpoint.Action probing c.endpoint (sendSyn core c now).endpoint := by
  unfold sendSyn
  split
  · exact Endpoint.Action.retransmit Endpoint.Retransmit.wait
  · rename_i hnext
    rw [not_not] at hnext
    have hsent := transmit_endpoint core c { sequence := c.isn, flags := tcpSyn, used := true } now
    have hsegment := transmit_slot core c { sequence := c.isn, flags := tcpSyn, used := true } now
    generalize transmit core c _ now = r at hsent hsegment ⊢
    obtain ⟨c', s, sent⟩ := r
    simp only at hsent hsegment ⊢
    have hslot : s.slot = ⟨c.isn, 0, 0, tcpSyn, true⟩ := hsegment
    have hsender : c'.sender = c.sender := congrArg Endpoint.sender hsent
    rw [← hsegment, hslot] at hsent
    cases sent with
    | false =>
      rw [if_neg Bool.false_ne_true, hsent]
      exact Endpoint.Action.syn false hstate hnext
    | true =>
      have hisn : c'.isn = c.isn := congrArg Sender.isn hsender
      have hstored : ({ c' with
          pending := Function.update c'.pending 0 s, next := c'.next + 1, timerUs := now } :
          Tcp ρ).endpoint = { c'.endpoint with sender := c'.sender.sendSyn } := by
        unfold Tcp.endpoint Tcp.sender Sender.sendSyn
        simp only [slot_update, hslot, hisn]
        rfl
      rw [if_pos rfl, hstored, hsent, hsender]
      exact Endpoint.Action.syn true hstate hnext

theorem probe_endpoint (c : Tcp ρ) (now : UInt64) :
    ∃ accepted, (probe c now).endpoint = c.endpoint.send (c.next - 1) tcpAck
      (Memory.ofList [c.endpoint.probeByte]) 1 accepted := by
  exact ⟨_, rfl⟩

/-- What a tick does after the acknowledgement, as the branches of the source. -/
theorem tickAction_endpoint (c : Tcp ρ) (now : UInt64) (probing : Prop)
    (hstate : c.state = .synSent ∨ c.endpoint.Connected)
    (hprobing : c.endpoint.Connected → timerDue c now = false →
      (c.ownFinAcked && c.peerFin && !c.ackPending) = false → probeDue c now = true → probing) :
    Endpoint.Action probing c.endpoint
      (if timerDue c now then loss core c now true
      else if c.state = .synSent then sendSyn core c now
      else if c.ownFinAcked && c.peerFin && !c.ackPending then { c with state := .done }
      else if probeDue c now then probe c now
      else sendNext core c now).endpoint := by
  split
  · exact Endpoint.Action.retransmit (loss_endpoint core c now true)
  · rename_i htimer
    split
    · rename_i hsyn
      exact sendSyn_endpoint core c now probing hsyn
    · rename_i hsyn
      have hconnected := hstate.resolve_left hsyn
      split
      · rename_i hdone
        rw [Bool.and_eq_true, Bool.and_eq_true, Bool.not_eq_true'] at hdone
        exact Endpoint.Action.complete hconnected hdone.1.1 hdone.1.2 hdone.2
      · rename_i hdone
        split
        · rename_i hdue
          obtain ⟨accepted, hprobe⟩ := probe_endpoint c now
          have hwindow : c.peerWindow = 0 := by
            rw [probeDue, Bool.and_eq_true, beq_iff_eq] at hdue
            exact hdue.1
          rw [hprobe]
          exact Endpoint.Action.probe accepted
            (hprobing hconnected (Bool.eq_false_iff.mpr htimer) (Bool.eq_false_iff.mpr hdone) hdue)
            hconnected hwindow
        · exact sendNext_endpoint core c now probing hconnected

theorem tcpTick_endpoint (c : Tcp ρ) (now : UInt64) :
    Endpoint.Tick (Probes c now) c.endpoint (tcpTick core c now).endpoint := by
  unfold tcpTick
  split
  · rename_i hstate
    exact Endpoint.Tick.rest hstate
  · rename_i hstate
    split
    · rename_i hdeadline
      exact Endpoint.Tick.deadline hdeadline.1 (tcpAbort_endpoint c _)
    · rename_i hdeadline
      have hack := acknowledge_endpoint c
      obtain ⟨context, heq⟩ := acknowledge_eq c
      have hsame : (acknowledge c).state = c.state := by rw [heq]
      simp only
      split
      · rename_i hdone
        exact Endpoint.Tick.done (hsame.symm.trans hdone) hack
      · rename_i hdone
        rw [hsame] at hdone
        have hlive : c.state = .synSent ∨ c.endpoint.Connected := by
          rw [not_or] at hstate
          cases hcase : c.state <;> simp_all [Endpoint.Connected]
        refine Endpoint.Tick.act hlive hack
          (tickAction_endpoint core (acknowledge c) now _ (by rw [heq]; exact hlive) ?_)
        intro hconnected htimer hunfinished hdue
        rw [heq] at hconnected htimer hunfinished hdue
        exact
          { connected := hconnected
            inTime := fun hlate ↦ hdeadline ⟨hdone, hlate⟩
            timer := htimer
            unfinished := by simpa using hunfinished
            due := hdue }

/-- The conditions of `Probes` lead to the probe. -/
theorem tcpTick_of_probes {c : Tcp ρ} {now : UInt64} (h : Probes c now) :
    tcpTick core c now = probe (acknowledge c) now := by
  obtain ⟨context, heq⟩ := acknowledge_eq c
  have hunfinished : ¬ ((acknowledge c).ownFinAcked && (acknowledge c).peerFin &&
      !(acknowledge c).ackPending) = true := by
    have hcases := h.unfinished
    rw [heq]
    simp_all
  have htimer : ¬ timerDue (acknowledge c) now = true := by
    rw [heq]
    exact Bool.eq_false_iff.mp h.timer
  have hdue : probeDue (acknowledge c) now = true := by
    rw [heq]
    exact h.due
  have hsame : (acknowledge c).state = c.state := by rw [heq]
  unfold tcpTick
  rw [if_neg (by rcases h.connected with hc | hc <;> simp [hc]),
    if_neg (fun hlate ↦ h.inTime hlate.2)]
  simp only
  rw [if_neg (by rw [hsame]; rcases h.connected with hc | hc <;> simp [hc]), if_neg htimer,
    if_neg (by rw [hsame]; rcases h.connected with hc | hc <;> simp [hc]), if_neg hunfinished,
    if_pos hdue]

end JordyOS.Transport
