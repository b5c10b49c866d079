import JordyOS.Transport.Download

/-!
# The advertised window

Every segment announces the window that the acceptability test of `tcp_input` uses.  It is at most
4096 bytes and ends at the latest one position behind a full file, where the FIN of the peer has its
place.  What is received moves the left edge by as much as the room shrinks, so the right edge never
moves back.
-/

namespace JordyOS.Transport

open Machine Net

/-! ## Edges -/

/-- The sequence numbers a received segment occupies. -/
def Segment.span (x : Segment) : UInt32 := x.length + (if has x.flags tcpFin then 1 else 0)

namespace Emission

def window (e : Emission) : UInt16 := netRead16 (e.bytes.shift 14)

/-- The first sequence number behind the advertised window. -/
def edge (e : Emission) : UInt32 := e.acknowledgement + e.window.toUInt32

/-- The sequence numbers of a segment lie in the advertised window. -/
def Admits (e : Emission) (x : Segment) : Prop :=
  distance e.acknowledgement x.sequence < e.window.toNat ∧
    distance e.acknowledgement x.sequence + x.span.toNat ≤ e.window.toNat

end Emission

/-- The right edge of the acceptability test. -/
def Receiver.edge (r : Receiver) : UInt32 := r.receiveNext + receiveWindow r.rxSize

/-- The acceptability test of `tcp_input`. -/
def Receiver.accepts (r : Receiver) (x : Segment) : Bool :=
  acceptable r.receiveNext r.rxSize x.sequence x.length x.flags

/-- Everything in the segment has been received before. -/
def Receiver.Holds (r : Receiver) (x : Segment) : Prop :=
  before x.sequence r.receiveNext = true ∧ before r.receiveNext (x.sequence + x.span) = false

theorem toNat_receiveWindow (rxSize : UInt32) :
    (receiveWindow rxSize).toNat = min 4096 (tcpBuffer + 1 - rxSize).toNat :=
  toNat_min32 _ _

theorem toNat_receiveWindow_of_le {rxSize : UInt32} (h : rxSize.toNat ≤ 16384) :
    (receiveWindow rxSize).toNat = min 4096 (16385 - rxSize.toNat) := by
  have hroom : (tcpBuffer + 1 - rxSize).toNat = 16385 - rxSize.toNat :=
    UInt32.toNat_sub_of_le _ _ (UInt32.le_iff_toNat_le.mpr (h.trans (by decide)))
  rw [toNat_receiveWindow, hroom]

namespace Endpoint

variable {v w : Endpoint} {e : Emission} {probing : Prop}

theorem emission_window (v : Endpoint) (seq : UInt32) (flags : UInt8) (data : Memory) (size : UInt32)
    (accepted : Bool) :
    (v.emission seq flags data size accepted).window.toUInt32 = receiveWindow v.receiver.rxSize :=
  segmentBytes_window _ _ _ _ _ _ _ _

/-- Every segment is built by `output` from the receiving half of the state it is sent in. -/
theorem Sends.exists_emission (h : Sends probing v e) :
    ∃ seq flags data size accepted, e = v.emission seq flags data size accepted := by
  cases h with
  | resend h => cases h <;> exact ⟨_, _, _, _, _, rfl⟩
  | syn => exact ⟨_, _, _, _, _, rfl⟩
  | probe => exact ⟨_, _, _, _, _, rfl⟩
  | data => exact ⟨_, _, _, _, _, rfl⟩
  | fin => exact ⟨_, _, _, _, _, rfl⟩

theorem Sends.window_eq (h : Sends probing v e) :
    e.window.toUInt32 = receiveWindow v.receiver.rxSize := by
  obtain ⟨seq, flags, data, size, accepted, rfl⟩ := h.exists_emission
  exact emission_window v seq flags data size accepted

theorem Sends.edge_eq (h : Sends probing v e) : e.edge = v.receiver.edge := by
  rw [Emission.edge, h.acknowledgement_eq, h.window_eq, Receiver.edge]

end Endpoint

/-! ## The receiving half -/

/-- The receiving half counts from `irs`: the file, then the FIN. -/
structure Receiver.Within (irs : UInt32) (r : Receiver) : Prop where
  size_le : r.rxSize.toNat ≤ 16384
  receiveNext_eq : distance (irs + 1) r.receiveNext = r.rxSize.toNat + r.peerFin.toNat

namespace Receiver

variable {irs : UInt32} {r : Receiver} {x : Segment}

theorem Within.edge_eq (h : r.Within irs) : distance (irs + 1) r.edge =
    r.rxSize.toNat + r.peerFin.toNat + min 4096 (16385 - r.rxSize.toNat) := by
  have hsize := h.size_le
  have hfin := Bool.toNat_le r.peerFin
  have hwindow := toNat_receiveWindow_of_le hsize
  have hnext := h.receiveNext_eq
  rw [edge, distance_add_of_lt (by omega), hnext, hwindow]

theorem toNat_store_rxSize (hsize : r.rxSize.toNat ≤ 16384)
    (hlength : x.length ≤ tcpBuffer - r.rxSize) :
    (r.store x).rxSize.toNat = r.rxSize.toNat + x.length.toNat ∧
      r.rxSize.toNat + x.length.toNat ≤ 16384 := by
  have hroom : (tcpBuffer - r.rxSize).toNat = 16384 - r.rxSize.toNat :=
    UInt32.toNat_sub_of_le _ _ (UInt32.le_iff_toNat_le.mpr hsize)
  have hfits : x.length.toNat ≤ (tcpBuffer - r.rxSize).toNat := UInt32.le_iff_toNat_le.mp hlength
  have hadd : (r.store x).rxSize = r.rxSize + x.length := rfl
  refine ⟨?_, by omega⟩
  rw [hadd, UInt32.toNat_add, Nat.mod_eq_of_lt (by omega)]

theorem Within.store (h : r.Within irs) (hfin : r.peerFin = false)
    (hlength : x.length ≤ tcpBuffer - r.rxSize) : (r.store x).Within irs := by
  obtain ⟨hstore, hle⟩ := toNat_store_rxSize h.size_le hlength
  have hnext := h.receiveNext_eq
  have hflag : (r.store x).peerFin = has x.flags tcpFin := by
    have hor : (r.store x).peerFin = (r.peerFin || has x.flags tcpFin) := rfl
    rw [hor, hfin, Bool.false_or]
  have hone : (if has x.flags tcpFin then 1 else 0 : UInt32).toNat = (has x.flags tcpFin).toNat := by
    cases has x.flags tcpFin <;> rfl
  have hbit := Bool.toNat_le (has x.flags tcpFin)
  rw [hfin, Bool.toNat_false] at hnext
  refine ⟨hstore ▸ hle, ?_⟩
  have hbytes : distance (irs + 1) (r.receiveNext + x.length) = r.rxSize.toNat + x.length.toNat := by
    rw [distance_add_of_lt (by omega), hnext, Nat.add_zero]
  calc
    distance (irs + 1) (r.store x).receiveNext =
        distance (irs + 1) (r.receiveNext + x.length + (if has x.flags tcpFin then 1 else 0)) := rfl
    _ = r.rxSize.toNat + x.length.toNat + (has x.flags tcpFin).toNat := by
      rw [distance_add_of_lt (by omega), hbytes, hone]
    _ = (r.store x).rxSize.toNat + (r.store x).peerFin.toNat := by
      rw [hstore, hflag]

/-- Both edges move forward only. -/
structure Grows (irs : UInt32) (r s : Receiver) : Prop where
  receiveNext_le : distance (irs + 1) r.receiveNext ≤ distance (irs + 1) s.receiveNext
  edge_le : distance (irs + 1) r.edge ≤ distance (irs + 1) s.edge

theorem Grows.refl (irs : UInt32) (r : Receiver) : r.Grows irs r := ⟨le_rfl, le_rfl⟩

/-- Bytes move the left edge, the room they take keeps the right edge where it is. -/
theorem Within.grows_store (h : r.Within irs) (hfin : r.peerFin = false)
    (hlength : x.length ≤ tcpBuffer - r.rxSize) : r.Grows irs (r.store x) := by
  obtain ⟨hstore, hle⟩ := toNat_store_rxSize h.size_le hlength
  have hafter := h.store hfin hlength
  have hedge := h.edge_eq
  rw [hfin, Bool.toNat_false] at hedge
  constructor
  · rw [h.receiveNext_eq, hafter.receiveNext_eq, hstore, hfin, Bool.toNat_false]
    omega
  · rw [hedge, hafter.edge_eq, hstore]
    omega

/-- A segment with nothing to receive passes by its position in an open window. -/
theorem accepts_of_span_eq_zero (hspan : x.span = 0) (hopen : receiveWindow r.rxSize ≠ 0)
    (hstart : before x.sequence r.receiveNext = false) (hinside : before x.sequence r.edge = true) :
    r.accepts x = true := by
  unfold accepts acceptable
  change (if x.span ≠ 0 then _ else _) = true
  rw [if_neg (not_not.mpr hspan), hstart]
  change (_ || (_ && _ && before x.sequence r.edge)) = true
  rw [hinside, Bool.or_eq_true, Bool.and_eq_true, Bool.and_eq_true, bne_iff_ne]
  exact Or.inr ⟨⟨hopen, rfl⟩, rfl⟩

/-- A segment that begins in the window passes with its last word. -/
theorem accepts_of_last (hspan : x.span ≠ 0) (hinside : before x.sequence r.edge = true)
    (hlast : before (x.sequence + x.span - 1) r.receiveNext = false) : r.accepts x = true := by
  unfold accepts acceptable
  change (if x.span ≠ 0 then if !before x.sequence r.edge then false
    else !before (x.sequence + x.span - 1) r.receiveNext else _) = true
  rw [if_pos hspan, hinside, hlast]
  rfl

/-- A segment inside a window advertised before passes the test, unless all of it has been received
since. -/
theorem Within.accepts_of_admits (h : r.Within irs) {e : Emission}
    (hedge : distance (irs + 1) e.acknowledgement + e.window.toNat ≤ distance (irs + 1) r.edge)
    (hx : e.Admits x) : r.accepts x = true ∨ r.Holds x := by
  obtain ⟨hlow, hhigh⟩ := hx
  have hedge' := h.edge_eq
  have hnext := h.receiveNext_eq
  have hsize := h.size_le
  have hfin := Bool.toNat_le r.peerFin
  have hstart : distance (irs + 1) x.sequence =
      distance (irs + 1) e.acknowledgement + distance e.acknowledgement x.sequence := by
    have hword : x.sequence = e.acknowledgement + (x.sequence - e.acknowledgement) := by
      rw [UInt32.add_comm, UInt32.sub_add_cancel]
    have hplace : distance e.acknowledgement x.sequence = (x.sequence - e.acknowledgement).toNat := rfl
    calc
      distance (irs + 1) x.sequence =
          distance (irs + 1) (e.acknowledgement + (x.sequence - e.acknowledgement)) := by
        rw [← hword]
      _ = _ := distance_add_of_lt (by omega)
  have hend : distance (irs + 1) (x.sequence + x.span) =
      distance (irs + 1) x.sequence + x.span.toNat := distance_add_of_lt (by omega)
  have hbelow : before x.sequence r.edge = true ↔
      distance (irs + 1) x.sequence < distance (irs + 1) r.edge :=
    before_iff_distance (by omega) (by omega)
  have hbefore : before x.sequence r.receiveNext = true ↔
      distance (irs + 1) x.sequence < distance (irs + 1) r.receiveNext :=
    before_iff_distance (by omega) (by omega)
  have hafter : before r.receiveNext (x.sequence + x.span) = true ↔
      distance (irs + 1) r.receiveNext < distance (irs + 1) (x.sequence + x.span) :=
    before_iff_distance (by omega) (by omega)
  have hinside : before x.sequence r.edge = true := hbelow.mpr (by omega)
  have hheld : distance (irs + 1) x.sequence < distance (irs + 1) r.receiveNext →
      distance (irs + 1) (x.sequence + x.span) ≤ distance (irs + 1) r.receiveNext → r.Holds x :=
    fun hfirst hlast ↦ ⟨hbefore.mpr hfirst, Bool.eq_false_iff.mpr (hafter.not.mpr (by omega))⟩
  by_cases hspan : x.span = 0
  · -- Nothing to receive: only the position of the segment counts.
    have hopen : receiveWindow r.rxSize ≠ 0 := by
      intro hzero
      have hwindow := toNat_receiveWindow_of_le hsize
      rw [hzero, UInt32.toNat_zero] at hwindow
      omega
    have hzero : x.span.toNat = 0 := by rw [hspan, UInt32.toNat_zero]
    by_cases hlate : distance (irs + 1) x.sequence < distance (irs + 1) r.receiveNext
    · exact Or.inr (hheld hlate (by omega))
    · have hnot : before x.sequence r.receiveNext = false := Bool.eq_false_iff.mpr (hbefore.not.mpr hlate)
      exact Or.inl (accepts_of_span_eq_zero hspan hopen hnot hinside)
  · have hpos : 1 ≤ x.span.toNat := by
      by_contra hzero
      exact hspan (UInt32.toNat_inj.mp (by rw [UInt32.toNat_zero]; omega))
    have hlast : distance (irs + 1) (x.sequence + x.span - 1) =
        distance (irs + 1) x.sequence + x.span.toNat - 1 := by
      rw [distance_sub, hend, UInt32.toNat_one]
      omega
    have hlastBefore : before (x.sequence + x.span - 1) r.receiveNext = true ↔
        distance (irs + 1) (x.sequence + x.span - 1) < distance (irs + 1) r.receiveNext :=
      before_iff_distance (by omega) (by omega)
    by_cases hlate : distance (irs + 1) (x.sequence + x.span) ≤ distance (irs + 1) r.receiveNext
    · exact Or.inr (hheld (by omega) hlate)
    · have hnot : before (x.sequence + x.span - 1) r.receiveNext = false :=
        Bool.eq_false_iff.mpr (hlastBefore.not.mpr (by omega))
      exact Or.inl (accepts_of_last hspan hinside hnot)

/-- The expected position is the first of the window: nothing in the window has been received. -/
theorem not_holds_of_admits {e : Emission} (hx : e.Admits x) (h : r.receiveNext = e.acknowledgement) :
    ¬ r.Holds x := by
  intro hholds
  have hplace : distance r.receiveNext x.sequence < e.window.toNat := h ▸ hx.1
  have hword := e.window.toNat_lt
  have hbefore := (before_iff _ _).mp hholds.1
  change 2 ^ 31 ≤ distance r.receiveNext x.sequence at hbefore
  omega

end Receiver

/-- What a segment announced, seen from a receiving half that may have moved on. -/
structure Emission.Announced (irs : UInt32) (r : Receiver) (e : Emission) : Prop where
  window_pos : 1 ≤ e.window.toNat
  window_le : e.window.toNat ≤ 4096
  edge_eq : distance (irs + 1) e.edge = distance (irs + 1) e.acknowledgement + e.window.toNat
  edge_le : distance (irs + 1) e.edge ≤ distance (irs + 1) r.edge

theorem Emission.Announced.grows {irs : UInt32} {r s : Receiver} {e : Emission}
    (h : e.Announced irs r) (hgrows : r.Grows irs s) : e.Announced irs s :=
  { h with edge_le := h.edge_le.trans hgrows.edge_le }

namespace Endpoint

variable {irs : UInt32} {v w : Endpoint} {x : Segment} {probing : Prop}

theorem Sends.announced {e : Emission} (h : Sends probing v e) (hv : v.receiver.Within irs) :
    e.Announced irs v.receiver := by
  have hsize := hv.size_le
  have hfin := Bool.toNat_le v.receiver.peerFin
  have hnext := hv.receiveNext_eq
  have hwindow : e.window.toNat = min 4096 (16385 - v.receiver.rxSize.toNat) := by
    rw [← toNat_receiveWindow_of_le hsize, ← h.window_eq, UInt16.toNat_toUInt32]
  have hedge : distance (irs + 1) e.edge =
      distance (irs + 1) e.acknowledgement + e.window.toNat := by
    rw [Emission.edge, h.acknowledgement_eq, distance_add_of_lt, UInt16.toNat_toUInt32]
    rw [UInt16.toNat_toUInt32]
    omega
  exact ⟨by omega, by omega, hedge, (congrArg (distance (irs + 1)) h.edge_eq).le⟩

/-- One call keeps the receiving half in bounds and moves its edges forward only. -/
theorem Received.within (h : Received v x w) (hv : v.receiver.Within irs) :
    w.receiver.Within irs ∧ v.receiver.Grows irs w.receiver := by
  cases h with
  | empty => exact ⟨hv, Receiver.Grows.refl irs _⟩
  | skip => exact ⟨hv, Receiver.Grows.refl irs _⟩
  | overflow _ _ _ h =>
    rw [h.receiver_eq]
    exact ⟨hv, Receiver.Grows.refl irs _⟩
  | store hfin _ hlength => exact ⟨hv.store hfin hlength, hv.grows_store hfin hlength⟩

theorem Input.within (h : Input v x w) (hopen : v.state ≠ .synSent) (hv : v.receiver.Within irs) :
    w.receiver.Within irs ∧ v.receiver.Grows irs w.receiver := by
  cases h with
  | ignore => exact ⟨hv, Receiver.Grows.refl irs _⟩
  | refuse hsyn => exact absurd hsyn hopen
  | establish mss hx => exact absurd hx.state hopen
  | note => exact ⟨hv, Receiver.Grows.refl irs _⟩
  | reset => exact ⟨hv, Receiver.Grows.refl irs _⟩
  | stream hx hacked hreceived =>
    have hreceiver := hacked.receiver_eq
    have hboth := hreceived.within (hreceiver ▸ hv)
    rw [hreceiver] at hboth
    exact hboth

theorem Tick.within (h : Tick probing v w) (hv : v.receiver.Within irs) :
    w.receiver.Within irs ∧ v.receiver.Grows irs w.receiver := by
  rw [h.receiver_eq]
  exact ⟨hv, Receiver.Grows.refl irs _⟩

/-- The SYN/ACK sets the receiving half to the position after `irs`. -/
theorem Input.within_of_opened (h : Input v x w) (hv : v.Fresh) (hsyn : v.state = .synSent)
    (hstate : w.state = .established) : w.receiver.Within x.sequence := by
  have hopened : w.Tracks x.sequence [] ∧ w.context = v.context := h.opened hv hsyn hstate
  have htracks := hopened.1.receiver
  have hsize : w.receiver.rxSize.toNat = 0 := Nat.le_zero.mp htracks.stored_le
  have hzero : w.receiver.rxSize = 0 := UInt32.toNat_inj.mp hsize
  have hnext := htracks.receiveNext_eq
  refine ⟨htracks.size_le, ?_⟩
  rw [hzero, UInt32.add_zero] at hnext
  rw [hnext, hsize, distance_add_left]
  cases w.receiver.peerFin <;> rfl

theorem Received.quiet (h : Received v x w) :
    w.context = v.context ∨ w.receiver = v.receiver := by
  cases h with
  | empty => exact Or.inl rfl
  | skip => exact Or.inl rfl
  | overflow _ _ _ h => exact Or.inr h.receiver_eq
  | store => exact Or.inl rfl

end Endpoint

/-! ## Runs -/

variable {ρ : Type} (core : LarpCore ρ)

/-- A segment whose payload is looked at causes no retransmission. -/
theorem acceptedInput_quiet (c : Tcp ρ) (b : Memory) (size : ℕ) (now : UInt64)
    (h : c.endpoint.Accepts (readSegment b size)) :
    (acceptedInput core c b (headerLength b) (netRead32 (b.shift 4)) (netRead32 (b.shift 8)) (b 13)
        (UInt32.ofNat (size - headerLength b)) now).context = c.context ∨
      (acceptedInput core c b (headerLength b) (netRead32 (b.shift 4)) (netRead32 (b.shift 8)) (b 13)
        (UInt32.ofNat (size - headerLength b)) now).receiver = c.receiver := by
  have hupdate := windowUpdate_endpoint c b size
  unfold acceptedInput
  generalize windowUpdate c b (netRead32 (b.shift 4)) (netRead32 (b.shift 8)) = r at hupdate ⊢
  obtain ⟨c', changed⟩ := r
  simp only at hupdate ⊢
  have hsender : c'.sender = c.sender := congrArg Endpoint.sender hupdate
  have huna : c'.una = c.una := congrArg Sender.una hsender
  have hnext : c'.next = c.next := congrArg Sender.next hsender
  have hreceiver : c'.receiver = c.receiver := congrArg Endpoint.receiver hupdate
  have hcontext : c'.context = c.context := congrArg Endpoint.context hupdate
  have hadvance : netRead32 (b.shift 8) ≠ c'.una →
      (ack core c' (netRead32 (b.shift 8)) now).endpoint =
        { c'.endpoint with sender := c'.sender.acknowledge (netRead32 (b.shift 8)) } :=
    ack_endpoint_of_ne core c' now (by rw [huna]; exact h.le_ack) (by rw [hnext]; exact h.ack_le)
  split
  · rename_i hdata
    have hcond : (netRead32 (b.shift 8) ≠ c'.una ∨ (UInt32.ofNat (size - headerLength b) = 0 ∧
        !has (b 13) tcpFin ∧ !changed)) ↔ netRead32 (b.shift 8) ≠ c'.una := by
      refine or_iff_left fun hempty ↦ ?_
      rcases hdata with hlength | hfin
      · exact hlength hempty.1
      · simp [hfin] at hempty
    have hkept : ∀ d : Tcp ρ, d.context = c.context → d.receiver = c.receiver →
        (receive d b (headerLength b) (netRead32 (b.shift 4)) (b 13)
          (UInt32.ofNat (size - headerLength b))).context = c.context ∨
        (receive d b (headerLength b) (netRead32 (b.shift 4)) (b 13)
          (UInt32.ofNat (size - headerLength b))).receiver = c.receiver := by
      intro d hd hdreceiver
      refine (receive_endpoint d b size).quiet.imp (fun hsame ↦ ?_) fun hsame ↦ ?_
      · exact hsame.trans hd
      · exact hsame.trans hdreceiver
    simp only [hcond]
    by_cases hne : netRead32 (b.shift 8) ≠ c'.una
    · rw [if_pos hne]
      have hend := hadvance hne
      exact hkept _ ((congrArg Endpoint.context hend).trans hcontext)
        ((congrArg Endpoint.receiver hend).trans hreceiver)
    · rw [if_neg hne]
      exact hkept c' hcontext hreceiver
  · right
    by_cases hne : netRead32 (b.shift 8) ≠ c'.una
    · rw [if_pos (Or.inl hne)]
      exact (congrArg Endpoint.receiver (hadvance hne)).trans hreceiver
    · rw [not_not] at hne
      split
      · have hloss := (ack_endpoint_of_eq core c' now (by rw [hnext, ← hne]; exact h.ack_le)).receiver_eq
        rw [hne]
        exact hloss.trans hreceiver
      · exact hreceiver

/-- No call both sends a segment and receives something. -/
theorem step_quiet {c : Tcp ρ} (hopen : c.state ≠ .synSent) (event : Event) :
    (step core c event).context = c.context ∨ (step core c event).receiver = c.receiver := by
  cases event with
  | tick now => exact Or.inr (tcpTick_endpoint core c now).receiver_eq
  | input b size now =>
    exact tcpInput_cases core hopen b size now
      (fun d ↦ d.context = c.context ∨ d.receiver = c.receiver) (Or.inl rfl) (fun _ ↦ Or.inl rfl)
      (fun _ _ _ ↦ Or.inl rfl) (acceptedInput_quiet core c b size now)

theorem within_step {irs : UInt32} {c : Tcp ρ} (hopen : c.state ≠ .synSent)
    (h : c.receiver.Within irs) (event : Event) :
    (step core c event).receiver.Within irs ∧ c.receiver.Grows irs (step core c event).receiver := by
  cases event with
  | input b size now => exact (tcpInput_endpoint core c b size now).within hopen h
  | tick now => exact (tcpTick_endpoint core c now).within h

/-- The segments a call sends announce the edges of the state it leaves behind. -/
def Announces (c d : Tcp ρ) : Prop :=
  ∃ sent, d.context = sent ++ c.context ∧
    ∀ e ∈ sent, e.acknowledgement = d.receiveNext ∧ e.edge = d.receiver.edge

theorem announces_step {c : Tcp ρ} (hopen : c.state ≠ .synSent) (event : Event) :
    Announces c (step core c event) := by
  obtain ⟨sent, hcontext, hsent⟩ := step_extends core c event
  rcases step_quiet core hopen event with hsame | hsame
  · exact ⟨[], hsame, by simp⟩
  · refine ⟨sent, hcontext, fun e he ↦ ⟨?_, ?_⟩⟩
    · rw [(hsent e he).acknowledgement_eq]
      exact congrArg Receiver.receiveNext hsame.symm
    · rw [(hsent e he).edge_eq]
      exact congrArg Receiver.edge hsame.symm

/-- What the segments sent so far, the latest first, have advertised, and what the acceptability test
makes of it now. -/
structure Advertised (irs : UInt32) (r : Receiver) (sent : List Emission) : Prop where
  window : ∀ e ∈ sent, 1 ≤ e.window.toNat ∧ e.window.toNat ≤ 4096
  edge_le : ∀ e ∈ sent, distance (irs + 1) e.edge ≤ 16384 + 1 + 1
  ordered : sent.Pairwise fun later earlier ↦
    distance (irs + 1) earlier.edge ≤ distance (irs + 1) later.edge
  accepted : ∀ e ∈ sent, ∀ x, e.Admits x → r.accepts x = true ∨ r.Holds x
  unmoved : ∀ e ∈ sent, ∀ x, e.Admits x → r.receiveNext = e.acknowledgement → r.accepts x = true

theorem advertised_of_announced {irs : UInt32} {r : Receiver} {sent : List Emission}
    (hr : r.Within irs) (hsent : ∀ e ∈ sent, e.Announced irs r)
    (hordered : sent.Pairwise fun later earlier ↦
      distance (irs + 1) earlier.edge ≤ distance (irs + 1) later.edge) : Advertised irs r sent := by
  have haccepted : ∀ e ∈ sent, ∀ x, e.Admits x → r.accepts x = true ∨ r.Holds x := by
    intro e he x hx
    refine hr.accepts_of_admits ?_ hx
    rw [← (hsent e he).edge_eq]
    exact (hsent e he).edge_le
  refine ⟨fun e he ↦ ⟨(hsent e he).window_pos, (hsent e he).window_le⟩, ?_, hordered, haccepted, ?_⟩
  · intro e he
    have hsize := hr.size_le
    have hfin := Bool.toNat_le r.peerFin
    have hle := (hsent e he).edge_le
    rw [hr.edge_eq] at hle
    omega
  · intro e he x hx hsame
    exact (haccepted e he x hx).resolve_right (Receiver.not_holds_of_admits hx hsame)

/-- The invariant behind it, for a connection established in state `c`. -/
def Announcing (irs : UInt32) (c d : Tcp ρ) : Prop :=
  d.state ≠ .synSent ∧ d.receiver.Within irs ∧ ∃ sent, d.context = sent ++ c.context ∧
    (∀ e ∈ sent, e.Announced irs d.receiver) ∧
    sent.Pairwise fun later earlier ↦ distance (irs + 1) earlier.edge ≤ distance (irs + 1) later.edge

theorem Announcing.step {irs : UInt32} {c d : Tcp ρ} (h : Announcing irs c d) (event : Event) :
    Announcing irs c (step core d event) := by
  obtain ⟨hopen, hwithin, sent, hcontext, hannounced, hordered⟩ := h
  obtain ⟨hnext, hgrows⟩ := within_step core hopen hwithin event
  obtain ⟨new, hnew, hsends⟩ := step_extends core d event
  have hedge : ∀ e ∈ new, e.edge = d.receiver.edge := fun e he ↦ (hsends e he).edge_eq
  refine ⟨not_synSent_step core hopen event, hnext, new ++ sent, ?_, ?_, ?_⟩
  · rw [List.append_assoc, ← hcontext]
    exact hnew
  · intro e he
    rcases List.mem_append.mp he with he | he
    · exact ((hsends e he).announced hwithin).grows hgrows
    · exact (hannounced e he).grows hgrows
  · rw [List.pairwise_append]
    refine ⟨?_, hordered, ?_⟩
    · refine List.pairwise_of_forall_mem_list fun later hlater earlier hearlier ↦ ?_
      rw [hedge later hlater, hedge earlier hearlier]
    · intro later hlater earlier hearlier
      rw [hedge later hlater]
      exact (hannounced earlier hearlier).edge_le

/-- The windows of a connection from the segment `first` that establishes it: of all segments sent
since, and of each call's segments when it returns. -/
theorem advertised_of_run (r : Request) (hstart : (r.connect core).state = .synSent)
    (before : List Event) (first : Memory) (firstSize : ℕ) (firstNow : UInt64) (after : List Event)
    (hopening : (run (step core) (r.connect core) before).state = .synSent)
    (hopened : (run (step core) (r.connect core)
      (before ++ [.input first firstSize firstNow])).state = .established) :
    (∃ sent, (run (step core) (r.connect core)
        (before ++ .input first firstSize firstNow :: after)).context =
        sent ++ (run (step core) (r.connect core)
          (before ++ [.input first firstSize firstNow])).context ∧
      Advertised (netRead32 (first.shift 4)) (run (step core) (r.connect core)
        (before ++ .input first firstSize firstNow :: after)).receiver sent) ∧
    ∀ initial event rest, after = initial ++ event :: rest →
      Announces
        (run (step core) (r.connect core) (before ++ .input first firstSize firstNow :: initial))
        (run (step core) (r.connect core)
          (before ++ .input first firstSize firstNow :: initial ++ [event])) := by
  have hinput := tcpInput_endpoint core (run (step core) (r.connect core) before) first firstSize
    firstNow
  rw [run_concat] at hopened ⊢
  have hwithin : (step core (run (step core) (r.connect core) before)
      (.input first firstSize firstNow)).receiver.Within (netRead32 (first.shift 4)) :=
    hinput.within_of_opened (Request.fresh hstart before) hopening hopened
  simp only [run_append, run_cons, run_nil]
  generalize hstate : step core (run (step core) (r.connect core) before)
    (.input first firstSize firstNow) = c at hopened hwithin ⊢
  have hopen : c.state ≠ .synSent := by
    rw [hopened]
    decide
  constructor
  · have hrun : Announcing (netRead32 (first.shift 4)) c (run (step core) c after) :=
      run_invariant (step core) (Announcing _ c) after
        ⟨hopen, hwithin, [], rfl, by simp, List.Pairwise.nil⟩ fun _ event h ↦ h.step core event
    obtain ⟨-, hreceiver, sent, hcontext, hannounced, hordered⟩ := hrun
    exact ⟨sent, hcontext, advertised_of_announced hreceiver hannounced hordered⟩
  · intro initial event rest _
    refine announces_step core ?_ event
    exact run_invariant (step core) (fun d ↦ d.state ≠ .synSent) initial hopen
      fun _ other hd ↦ not_synSent_step core hd other

theorem advertised_of_run_pieces :
    ∃ sent, (run (step steadyCore) (emptyRequest.connect steadyCore) ([.tick 0] ++
        .input (peerSegment 500 101 (tcpSyn ||| tcpAck) 4096 []) 20 1000 :: pieces)).context =
        sent ++ (run (step steadyCore) (emptyRequest.connect steadyCore) ([.tick 0] ++
          [.input (peerSegment 500 101 (tcpSyn ||| tcpAck) 4096 []) 20 1000])).context ∧
      Advertised 500 (run (step steadyCore) (emptyRequest.connect steadyCore) ([.tick 0] ++
        .input (peerSegment 500 101 (tcpSyn ||| tcpAck) 4096 []) 20 1000 :: pieces)).receiver sent :=
  (advertised_of_run steadyCore emptyRequest rfl [.tick 0]
    (peerSegment 500 101 (tcpSyn ||| tcpAck) 4096 []) 20 1000 pieces rfl rfl).1

end JordyOS.Transport
