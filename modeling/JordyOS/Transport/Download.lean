import JordyOS.Transport.Completion
import JordyOS.Transport.FlowControl

/-!
# The download

The segments of the peer are pieces of one stream, in any order and number.  What the connection has
stored is always the part of the stream up to some position, that position is what it acknowledges,
and the FIN counts once the whole stream is stored.  A segment left with nothing but new bytes after
trimming continues the stored part; every other segment leaves it alone.
-/

namespace JordyOS.Transport

open Machine Net

/-! ## Pieces of the stream -/

/-- A segment carries the bytes of `stream` at their places after `irs`, and its FIN at the end. -/
structure Delivers (irs : UInt32) (stream : List UInt8) (b : Memory) (size : ℕ) : Prop where
  size_le : size ≤ 65535
  byte : ∀ j < size - headerLength b, ∀ (i : ℕ) (hi : i < stream.length),
    netRead32 (b.shift 4) + UInt32.ofNat j = irs + 1 + UInt32.ofNat i →
    b (headerLength b + j) = stream[i]
  fin : has (b 13) tcpFin = true →
    netRead32 (b.shift 4) + UInt32.ofNat (size - headerLength b) =
      irs + 1 + UInt32.ofNat stream.length

/-- Such a segment carries no byte at the position where the stream ends. -/
structure DeliversWithin (irs : UInt32) (stream : List UInt8) (b : Memory) (size : ℕ) : Prop
    extends Delivers irs stream b size where
  ends : ∀ j < size - headerLength b,
    netRead32 (b.shift 4) + UInt32.ofNat j ≠ irs + 1 + UInt32.ofNat stream.length

/-- The same, of the fields of a segment. -/
structure Segment.Piece (irs : UInt32) (stream : List UInt8) (x : Segment) : Prop where
  byte : ∀ j < x.length.toNat, ∀ (i : ℕ) (hi : i < stream.length),
    x.sequence + UInt32.ofNat j = irs + 1 + UInt32.ofNat i → x.payload j = stream[i]
  fin : has x.flags tcpFin = true → x.sequence + x.length = irs + 1 + UInt32.ofNat stream.length
  ends : ∀ j < x.length.toNat, x.sequence + UInt32.ofNat j ≠ irs + 1 + UInt32.ofNat stream.length

variable {irs : UInt32} {stream : List UInt8} {x : Segment}

theorem DeliversWithin.piece {b : Memory} {size : ℕ} (h : DeliversWithin irs stream b size) :
    (readSegment b size).Piece irs stream := by
  have hsize : size - headerLength b < 2 ^ 32 := by
    have := h.size_le
    omega
  have hlength : (readSegment b size).length.toNat = size - headerLength b := by
    rw [readSegment, UInt32.toNat_ofNat', Nat.mod_eq_of_lt hsize]
  constructor
  · intro j hj i hi hplace
    exact h.byte j (hlength ▸ hj) i hi hplace
  · exact h.fin
  · intro j hj
    exact h.ends j (hlength ▸ hj)

theorem overlap_le (receiveNext seq length : UInt32) :
    (overlap receiveNext seq length).toNat ≤ length.toNat := by
  unfold overlap
  split
  · rw [toNat_min32]
    exact Nat.min_le_right _ _
  · exact Nat.zero_le _

theorem ofNat_add_toNat (word : UInt32) (j : ℕ) :
    word + UInt32.ofNat j = UInt32.ofNat (word.toNat + j) := by
  rw [UInt32.ofNat_add, UInt32.ofNat_toNat]

/-- Trimming keeps every byte in its place. -/
theorem Segment.Piece.trim (h : x.Piece irs stream) (receiveNext : UInt32) :
    (x.trim receiveNext).Piece irs stream := by
  unfold Segment.trim
  generalize hskip : overlap receiveNext x.sequence x.length = skip
  have hle : skip.toNat ≤ x.length.toNat := hskip ▸ overlap_le _ _ _
  have hlength : (x.length - skip).toNat = x.length.toNat - skip.toNat :=
    UInt32.toNat_sub_of_le _ _ (UInt32.le_iff_toNat_le.mpr hle)
  have hplace : ∀ j, x.sequence + skip + UInt32.ofNat j =
      x.sequence + UInt32.ofNat (skip.toNat + j) := fun j ↦ by
    rw [UInt32.add_assoc, ofNat_add_toNat]
  constructor
  · intro j hj i hi hposition
    rw [hlength] at hj
    exact h.byte (skip.toNat + j) (by omega) i hi ((hplace j).symm.trans hposition)
  · intro hfin
    rw [UInt32.add_assoc, UInt32.add_comm skip, UInt32.sub_add_cancel]
    exact h.fin hfin
  · intro j hj
    rw [hlength] at hj
    rw [hplace]
    exact h.ends (skip.toNat + j) (by omega)

/-! ## The stored part -/

/-- The receiving half holds the stream up to `rxSize` and expects what follows. -/
structure Receiver.Tracks (irs : UInt32) (stream : List UInt8) (r : Receiver) : Prop where
  size_le : r.rxSize.toNat ≤ 16384
  stored_le : r.rxSize.toNat ≤ stream.length
  stored : ∀ i < r.rxSize.toNat, ∀ hi : i < stream.length, r.rx i = stream[i]
  receiveNext_eq : r.receiveNext = irs + 1 + r.rxSize + (if r.peerFin then 1 else 0)
  complete : r.peerFin = true → r.rxSize.toNat = stream.length

namespace Receiver.Tracks

variable {r : Receiver}

theorem place (h : r.Tracks irs stream) (hfin : r.peerFin = false)
    (hsequence : x.sequence = r.receiveNext) (j : ℕ) :
    x.sequence + UInt32.ofNat j = irs + 1 + UInt32.ofNat (r.rxSize.toNat + j) := by
  have hnext : r.receiveNext = irs + 1 + r.rxSize := by
    rw [h.receiveNext_eq, hfin]
    exact UInt32.add_zero _
  rw [hsequence, hnext, UInt32.add_assoc (irs + 1), ofNat_add_toNat]

/-- The bytes in order do not reach behind the end of the stream. -/
theorem reach_le (h : r.Tracks irs stream) (hx : x.Piece irs stream) (hfin : r.peerFin = false)
    (hsequence : x.sequence = r.receiveNext) :
    r.rxSize.toNat + x.length.toNat ≤ stream.length := by
  by_contra hbehind
  have hstored := h.stored_le
  refine hx.ends (stream.length - r.rxSize.toNat) (by omega) ?_
  rw [h.place hfin hsequence]
  congr 2
  omega

theorem overflow (h : r.Tracks irs stream) (hx : x.Piece irs stream) (hfin : r.peerFin = false)
    (hsequence : x.sequence = r.receiveNext) (hlength : x.length > tcpBuffer - r.rxSize) :
    16384 < stream.length := by
  have hroom : (tcpBuffer - r.rxSize).toNat = 16384 - r.rxSize.toNat :=
    UInt32.toNat_sub_of_le _ _ (UInt32.le_iff_toNat_le.mpr h.size_le)
  have hlength' : (tcpBuffer - r.rxSize).toNat < x.length.toNat :=
    UInt32.lt_iff_toNat_lt.mp hlength
  have hreach := h.reach_le hx hfin hsequence
  omega

/-- A segment in order extends the stored part. -/
theorem store (h : r.Tracks irs stream) (hx : x.Piece irs stream) (hstream : stream.length < 2 ^ 31)
    (hfin : r.peerFin = false) (hsequence : x.sequence = r.receiveNext)
    (hlength : x.length ≤ tcpBuffer - r.rxSize) : (r.store x).Tracks irs stream := by
  have hroom : (tcpBuffer - r.rxSize).toNat = 16384 - r.rxSize.toNat :=
    UInt32.toNat_sub_of_le _ _ (UInt32.le_iff_toNat_le.mpr h.size_le)
  have hlength' : x.length.toNat ≤ (tcpBuffer - r.rxSize).toNat :=
    UInt32.le_iff_toNat_le.mp hlength
  have hreach := h.reach_le hx hfin hsequence
  have hsize := h.size_le
  have hstore : (r.store x).rxSize.toNat = r.rxSize.toNat + x.length.toNat := by
    have hadd : (r.store x).rxSize = r.rxSize + x.length := rfl
    rw [hadd, UInt32.toNat_add, Nat.mod_eq_of_lt (by omega)]
  have hflag : (r.store x).peerFin = has x.flags tcpFin := by
    have hor : (r.store x).peerFin = (r.peerFin || has x.flags tcpFin) := rfl
    rw [hor, hfin, Bool.false_or]
  constructor
  · rw [hstore]
    omega
  · rw [hstore]
    exact hreach
  · intro i hi hstreamed
    rw [hstore] at hi
    by_cases hold : i < r.rxSize.toNat
    · calc
        (r.store x).rx i = r.rx i := Memory.copy_below _ _ hold
        _ = stream[i] := h.stored i hold hstreamed
    · obtain ⟨j, rfl⟩ := Nat.exists_eq_add_of_le (Nat.le_of_not_lt hold)
      calc
        (r.store x).rx (r.rxSize.toNat + j) = x.payload j := Memory.copy_inside _ _ (by omega)
        _ = stream[r.rxSize.toNat + j] :=
          hx.byte j (by omega) _ hstreamed (h.place hfin hsequence j)
  · have hnext : r.receiveNext = irs + 1 + r.rxSize := by
      rw [h.receiveNext_eq, hfin]
      exact UInt32.add_zero _
    rw [hflag]
    calc
      (r.store x).receiveNext = r.receiveNext + x.length + (if has x.flags tcpFin then 1 else 0) := rfl
      _ = irs + 1 + (r.rxSize + x.length) + (if has x.flags tcpFin then 1 else 0) := by
        rw [hnext, UInt32.add_assoc (irs + 1)]
  · intro hend
    have hplace := h.place hfin hsequence x.length.toNat
    rw [UInt32.ofNat_toNat, hx.fin (hflag ▸ hend)] at hplace
    have hwords : UInt32.ofNat stream.length = UInt32.ofNat (r.rxSize.toNat + x.length.toNat) :=
      (UInt32.add_right_inj _).mp hplace
    have hnumbers := congrArg UInt32.toNat hwords
    rw [UInt32.toNat_ofNat', UInt32.toNat_ofNat', Nat.mod_eq_of_lt (by omega),
      Nat.mod_eq_of_lt (by omega)] at hnumbers
    rw [hstore, hnumbers]

end Receiver.Tracks

namespace Endpoint

variable {v w : Endpoint} {probing : Prop}

/-! ## Running out of space -/

/-- The connection failed for want of space only if the stream does not fit. -/
def Explained (stream : List UInt8) (v : Endpoint) : Prop :=
  v.error = some "receive file exceeds 16 KiB" → 16384 < stream.length

theorem Abandon.error_eq {reason : String} (h : Abandon v reason w) : w.error = some reason := by
  cases h <;> rfl

theorem Abandon.explained {reason : String} (h : Abandon v reason w)
    (hreason : reason ≠ "receive file exceeds 16 KiB") : w.Explained stream := by
  intro herror
  rw [h.error_eq] at herror
  exact absurd (Option.some.inj herror) hreason

theorem Explained.retransmit (h : v.Explained stream) (hw : Retransmit v w) :
    w.Explained stream := by
  cases hw with
  | wait => exact h
  | resend => exact h
  | abandon hw => exact hw.explained (by decide)

theorem Explained.acknowledge (h : v.Explained stream) (hw : Acknowledge v w) :
    w.Explained stream := by
  cases hw <;> exact h

theorem Explained.action (h : v.Explained stream) (hw : Action probing v w) :
    w.Explained stream := by
  cases hw with
  | retransmit hw => exact h.retransmit hw
  | syn => exact h
  | complete => exact h
  | probe => exact h
  | data => exact h
  | fin => exact h

theorem Explained.tick (h : v.Explained stream) (hw : Tick probing v w) : w.Explained stream := by
  cases hw with
  | rest => exact h
  | deadline _ hw => exact hw.explained (by decide)
  | done _ hw => exact h.acknowledge hw
  | act _ hw haction => exact (h.acknowledge hw).action haction

theorem Explained.acked (h : v.Explained stream) (hw : Acked v x w) : w.Explained stream := by
  cases hw with
  | keep => exact h
  | duplicate _ hw => exact Explained.retransmit (v := { v with window := v.window.update x }) h hw
  | advance => exact h

/-! ## Transitions -/

/-- An established connection, as far as the download is concerned. -/
structure Tracks (irs : UInt32) (stream : List UInt8) (v : Endpoint) : Prop where
  opened : v.state ≠ .synSent
  receiver : v.receiver.Tracks irs stream
  explained : v.Explained stream

theorem Tick.not_synSent (hv : v.state ≠ .synSent) (hw : Tick probing v w) :
    w.state ≠ .synSent := by
  have haction : ∀ {u y : Endpoint}, u.state ≠ .synSent → Action probing u y →
      y.state ≠ .synSent := by
    intro u y hu hy
    cases hy with
    | retransmit hy =>
      rcases hy.state_eq with hstate | hstate
      · rw [hstate]
        exact hu
      · simp [hstate]
    | syn => exact hu
    | complete => simp
    | probe => exact hu
    | data => exact hu
    | fin slot accepted =>
      cases accepted with
      | false => exact hu
      | true => simp
  cases hw with
  | rest => exact hv
  | deadline _ hw => simp [hw.state_eq]
  | done _ hw =>
    rw [hw.state_eq]
    exact hv
  | act _ hw hact =>
    refine haction ?_ hact
    rw [hw.state_eq]
    exact hv

theorem Input.not_synSent (hv : v.state ≠ .synSent) (hw : Input v x w) : w.state ≠ .synSent := by
  cases hw with
  | ignore => exact hv
  | refuse => simp [fail]
  | establish => simp [Endpoint.establish]
  | note => exact hv
  | reset => simp [fail]
  | stream hx hacked hreceived => exact hreceived.not_synSent (hacked.not_synSent hx.live)

theorem Tracks.tick (h : v.Tracks irs stream) (hw : Tick probing v w) : w.Tracks irs stream where
  opened := Tick.not_synSent h.opened hw
  receiver := hw.receiver_eq ▸ h.receiver
  explained := h.explained.tick hw

theorem Tracks.acked (h : v.Tracks irs stream) (hlive : v.Live) (hw : Acked v x w) :
    w.Tracks irs stream where
  opened := hw.not_synSent hlive
  receiver := hw.receiver_eq ▸ h.receiver
  explained := h.explained.acked hw

theorem Tracks.received (h : v.Tracks irs stream) (hx : x.Piece irs stream)
    (hstream : stream.length < 2 ^ 31) (hw : Received v x w) : w.Tracks irs stream := by
  refine ⟨hw.not_synSent h.opened, ?_, ?_⟩
  · cases hw with
    | empty => exact h.receiver
    | skip => exact h.receiver
    | overflow _ _ _ hw => exact hw.receiver_eq ▸ h.receiver
    | store hfin hsequence hlength =>
      exact h.receiver.store (hx.trim _) hstream hfin hsequence hlength
  · cases hw with
    | empty => exact h.explained
    | skip => exact h.explained
    | overflow hfin hsequence hlength =>
      exact fun _ ↦ h.receiver.overflow (hx.trim _) hfin hsequence hlength
    | store => exact h.explained

theorem Tracks.input (h : v.Tracks irs stream) (hx : x.Piece irs stream)
    (hstream : stream.length < 2 ^ 31) (hw : Input v x w) : w.Tracks irs stream := by
  cases hw with
  | ignore => exact h
  | refuse hsyn => exact absurd hsyn h.opened
  | establish mss hsyn => exact absurd hsyn.state h.opened
  | note => exact ⟨h.opened, h.receiver, h.explained⟩
  | reset =>
    refine ⟨by simp [fail], h.receiver, fun herror ↦ ?_⟩
    exact absurd (Option.some.inj herror) (by decide)
  | stream haccepts hacked hreceived =>
    exact (h.acked haccepts.live hacked).received hx hstream hreceived

/-- The SYN/ACK that establishes the connection starts an empty download and sends nothing. -/
theorem Input.opened (hw : Input v x w) (hv : v.Fresh) (hsyn : v.state = .synSent)
    (hstate : w.state = .established) : w.Tracks x.sequence stream ∧ w.context = v.context := by
  obtain ⟨hsize, hfin, -, herror⟩ := hv hsyn
  cases hw with
  | ignore => exact absurd (hsyn.symm.trans hstate) (by decide)
  | refuse => cases hstate
  | establish mss hx =>
    refine ⟨⟨by simp [Endpoint.establish], ?_, fun hfailed ↦ ?_⟩, rfl⟩
    · have hempty : (v.establish x mss).receiver.rxSize.toNat = 0 := congrArg UInt32.toNat hsize
      constructor
      · rw [hempty]
        exact Nat.zero_le _
      · rw [hempty]
        exact Nat.zero_le _
      · intro i hi
        rw [hempty] at hi
        exact absurd hi (Nat.not_lt_zero i)
      · simp [Endpoint.establish, hsize, hfin]
      · intro hend
        exact absurd (hfin.symm.trans hend) Bool.false_ne_true
    · have hnone : (v.establish x mss).error = none := herror
      rw [hnone] at hfailed
      cases hfailed
  | note hlive => exact absurd hsyn hlive.not_synSent
  | reset hlive => exact absurd hsyn hlive.not_synSent
  | stream hx => exact absurd hsyn hx.live.not_synSent

/-! ## What is sent -/

theorem Resends.acknowledgement_eq {e : Emission} (h : Resends v e) :
    e.acknowledgement = v.receiver.receiveNext := by
  cases h <;> exact emission_acknowledgement _ _ _ _ _ _

/-- Every segment acknowledges what has been received so far. -/
theorem Sends.acknowledgement_eq {e : Emission} (h : Sends probing v e) :
    e.acknowledgement = v.receiver.receiveNext := by
  cases h with
  | resend h => exact h.acknowledgement_eq
  | syn => exact emission_acknowledgement _ _ _ _ _ _
  | probe => exact emission_acknowledgement _ _ _ _ _ _
  | data => exact emission_acknowledgement _ _ _ _ _ _
  | fin => exact emission_acknowledgement _ _ _ _ _ _

/-- Before the handshake only SYNs are sent. -/
theorem Sends.syn_of_synSent {e : Emission} (h : Sends probing v e) (hv : v.Sound)
    (hfresh : v.Fresh) (hsyn : v.state = .synSent) : has e.flags tcpSyn = true := by
  have hclosed : ¬ v.Connected := fun hstate ↦ hstate.not_synSent hsyn
  cases h with
  | resend h =>
    cases h with
    | control flags accepted hflags hstate =>
      rcases hstate with hpending | hstate
      · exact absurd ((hfresh hsyn).2.2.1.symm.trans hpending) Bool.false_ne_true
      · exact absurd hstate hclosed
    | queued i accepted hstate hused =>
      have hslot := ((hv.opening hsyn).syn i hused).2.1
      have hflag : has tcpSyn tcpSyn = true := by decide
      rw [emission_flags, hslot]
      exact hflag
  | syn =>
    rw [emission_flags]
    decide
  | probe accepted hprobing hstate => exact absurd hstate hclosed
  | data length accepted hstate => exact absurd hstate hclosed
  | fin accepted hstate => exact absurd hstate hclosed

end Endpoint

/-! ## Runs -/

variable {ρ : Type} (core : LarpCore ρ)

/-- The bytes received so far. -/
def Tcp.file (c : Tcp ρ) : List UInt8 := (List.range c.rxSize.toNat).map c.rx

/-- What holds of the receiving half from the handshake on. -/
structure Downloaded (irs : UInt32) (stream : List UInt8) (c : Tcp ρ) : Prop where
  size_le : c.rxSize.toNat ≤ 16384
  file_prefix : c.file <+: stream
  receiveNext_eq : c.receiveNext = irs + 1 + c.rxSize + (if c.peerFin then 1 else 0)
  complete : c.peerFin = true → c.rxSize.toNat = stream.length
  done : c.state = .done → c.file = stream
  overflow : c.error = some "receive file exceeds 16 KiB" → 16384 < stream.length

theorem Receiver.Tracks.file_eq {c : Tcp ρ} (h : c.receiver.Tracks irs stream) :
    c.file = stream.take c.rxSize.toNat := by
  have hstored : c.rxSize.toNat ≤ stream.length := h.stored_le
  apply List.ext_getElem
  · rw [Tcp.file, List.length_map, List.length_range, List.length_take, Nat.min_eq_left hstored]
  · intro i hi hi'
    rw [List.length_take] at hi'
    rw [List.getElem_take]
    simp only [Tcp.file, List.getElem_map, List.getElem_range]
    exact h.stored i (by rw [Tcp.receiver_rxSize]; omega) (by omega)

theorem Endpoint.Tracks.downloaded {c : Tcp ρ} (h : c.endpoint.Tracks irs stream)
    (hsettled : c.endpoint.Settled) : Downloaded irs stream c where
  size_le := h.receiver.size_le
  file_prefix := by
    rw [h.receiver.file_eq]
    exact List.take_prefix _ _
  receiveNext_eq := h.receiver.receiveNext_eq
  complete := h.receiver.complete
  done hdone := by
    have hcomplete : c.rxSize.toNat = stream.length := h.receiver.complete (hsettled hdone).2
    rw [h.receiver.file_eq, hcomplete, List.take_length]
  overflow := h.explained

theorem not_synSent_step {c : Tcp ρ} (h : c.state ≠ .synSent) (event : Event) :
    (step core c event).state ≠ .synSent := by
  cases event with
  | input b size now => exact (tcpInput_endpoint core c b size now).not_synSent h
  | tick now => exact (tcpTick_endpoint core c now).not_synSent h

/-- Before the handshake only SYNs are sent. -/
theorem syn_of_synSent {r : Request} (hstart : (r.connect core).state = .synSent)
    {events : List Event} (hsyn : (run (step core) (r.connect core) events).state = .synSent) :
    ∀ e ∈ (run (step core) (r.connect core) events).context, has e.flags tcpSyn = true := by
  revert hsyn
  refine run_induction (step core) (fun _ c ↦ c.state = .synSent →
    ∀ e ∈ c.context, has e.flags tcpSyn = true) ?_ ?_
  · intro _ e he
    have hnone : (r.connect core).context = [] :=
      congrArg Endpoint.context (Request.connect_endpoint hstart).2
    rw [hnone] at he
    cases he
  · intro before event after _ hbefore hsyn e he
    have hopening : (run (step core) (r.connect core) before).state = .synSent := by
      by_contra hopened
      exact not_synSent_step core hopened event hsyn
    obtain ⟨sent, hcontext, hsent⟩ :=
      step_extends core (run (step core) (r.connect core) before) event
    have hcontext' : (step core (run (step core) (r.connect core) before) event).context =
        sent ++ (run (step core) (r.connect core) before).context := hcontext
    rw [hcontext'] at he
    rcases List.mem_append.mp he with he | he
    · exact (hsent e he).syn_of_synSent (Request.sound hstart before) (Request.fresh hstart before)
        hopening
    · exact hbefore hopening e he

/-- After the handshake every state holds a part of the stream, whatever the order of its pieces. -/
theorem tracks_run {c : Tcp ρ} (h : c.endpoint.Tracks irs stream) (hstream : stream.length < 2 ^ 31)
    {events : List Event}
    (hpieces : ∀ b size now, .input b size now ∈ events → addressed c b size = true →
      DeliversWithin irs stream b size) :
    (run (step core) c events).endpoint.Tracks irs stream := by
  have hboth : (run (step core) c events).endpoint.Tracks irs stream ∧
      (run (step core) c events).endpoint.transfer = c.endpoint.transfer := by
    refine run_invariant_of_mem (step core) (fun d ↦ d.endpoint.Tracks irs stream ∧
      d.endpoint.transfer = c.endpoint.transfer) ⟨h, rfl⟩ ?_
    rintro d event hevent ⟨hd, htransfer⟩
    refine ⟨?_, (transfer_step core d event).trans htransfer⟩
    cases event with
    | tick now => exact hd.tick (tcpTick_endpoint core d now)
    | input b size now =>
      by_cases haddressed : addressed d b size = true
      · have hpiece := hpieces b size now hevent
          ((addressed_congr htransfer b size).symm.trans haddressed)
        exact hd.input hpiece.piece hstream (tcpInput_endpoint core d b size now)
      · have hsame := tcpInput_of_not_addressed core now (Bool.eq_false_iff.mpr haddressed)
        rw [step, hsame]
        exact hd
  exact hboth.1

theorem empty_of_synSent {r : Request} (hstart : (r.connect core).state = .synSent)
    {before : List Event} (hsyn : (run (step core) (r.connect core) before).state = .synSent)
    {first second : List Event} (hsplit : before = first ++ second) :
    (run (step core) (r.connect core) first).file = [] ∧
      (run (step core) (r.connect core) first).peerFin = false := by
  have hopening : (run (step core) (r.connect core) first).state = .synSent := by
    by_contra hopened
    refine absurd hsyn ?_
    rw [hsplit, run_append]
    exact run_invariant (step core) (fun c ↦ c.state ≠ .synSent) second hopened
      fun _ event h ↦ not_synSent_step core h event
  obtain ⟨hsize, hfin, -⟩ := Request.fresh hstart first hopening
  have hsize' : (run (step core) (r.connect core) first).rxSize = 0 := hsize
  refine ⟨?_, hfin⟩
  rw [Tcp.file, hsize']
  rfl

/-- The download of a connection: `first` is the segment that established it, and what follows it
are pieces of `stream`.  Nothing is received and only SYNs are sent before; every state after holds
a part of the stream, and every segment sent then acknowledges exactly that part. -/
theorem downloaded_of_run (r : Request) (hstart : (r.connect core).state = .synSent)
    (before : List Event) (first : Memory) (firstSize : ℕ) (firstNow : UInt64) (after : List Event)
    (hopening : (run (step core) (r.connect core) before).state = .synSent)
    (hopened : (run (step core) (r.connect core)
      (before ++ [.input first firstSize firstNow])).state = .established)
    (stream : List UInt8) (hstream : stream.length < 2 ^ 31)
    (hpieces : ∀ b size now, .input b size now ∈ after → addressed (r.connect core) b size = true →
      DeliversWithin (netRead32 (first.shift 4)) stream b size) :
    (∀ initial rest, before = initial ++ rest →
      (run (step core) (r.connect core) initial).file = [] ∧
      (run (step core) (r.connect core) initial).peerFin = false) ∧
    (∀ e ∈ (run (step core) (r.connect core) (before ++ [.input first firstSize firstNow])).context,
      has e.flags tcpSyn = true) ∧
    Downloaded (netRead32 (first.shift 4)) stream
      (run (step core) (r.connect core) (before ++ .input first firstSize firstNow :: after)) ∧
    ∀ event sent, (run (step core) (r.connect core)
        (before ++ .input first firstSize firstNow :: after ++ [event])).context = sent ++
        (run (step core) (r.connect core)
          (before ++ .input first firstSize firstNow :: after)).context →
      ∀ e ∈ sent, e.acknowledgement = (run (step core) (r.connect core)
        (before ++ .input first firstSize firstNow :: after)).receiveNext := by
  have hinput := tcpInput_endpoint core (run (step core) (r.connect core) before) first firstSize
    firstNow
  rw [run_concat] at hopened
  obtain ⟨htracks, hcontext⟩ : (step core (run (step core) (r.connect core) before)
      (.input first firstSize firstNow)).endpoint.Tracks (netRead32 (first.shift 4)) stream ∧
      (step core (run (step core) (r.connect core) before)
        (.input first firstSize firstNow)).context =
      (run (step core) (r.connect core) before).context :=
    hinput.opened (Request.fresh hstart before) hopening hopened
  refine ⟨fun _ _ hsplit ↦ empty_of_synSent core hstart hopening hsplit, ?_, ?_, ?_⟩
  · intro e he
    have hsame : (run (step core) (r.connect core) (before ++ [.input first firstSize
        firstNow])).context = (run (step core) (r.connect core) before).context := by
      rw [run_concat]
      exact hcontext
    exact syn_of_synSent core hstart hopening e (hsame ▸ he)
  · have htransfer := (transfer_step core (run (step core) (r.connect core) before)
      (.input first firstSize firstNow)).trans (transfer_run core (r.connect core) before)
    have hafter : ∀ b size now, .input b size now ∈ after →
        addressed (step core (run (step core) (r.connect core) before)
          (.input first firstSize firstNow)) b size = true →
        DeliversWithin (netRead32 (first.shift 4)) stream b size := by
      intro b size now hb haddressed
      exact hpieces b size now hb ((addressed_congr htransfer b size).symm.trans haddressed)
    have hrun := tracks_run core htracks hstream hafter
    have hsettled := Request.settled hstart (before ++ .input first firstSize firstNow :: after)
    rw [run_append, run_cons] at hsettled ⊢
    exact hrun.downloaded hsettled
  · intro event sent hnew e he
    obtain ⟨all, hall, hsends⟩ := step_extends core (run (step core) (r.connect core)
      (before ++ .input first firstSize firstNow :: after)) event
    rw [run_concat] at hnew
    have heq : sent = all := List.append_cancel_right (hnew.symm.trans hall)
    exact (hsends e (heq ▸ he)).acknowledgement_eq

/-- The second half of a two-byte file arrives first, then the whole file with the FIN. -/
def pieces : List Event :=
  [.input (peerSegment 502 101 tcpAck 4096 [8]) 21 2000,
    .input (peerSegment 501 101 (tcpAck ||| tcpFin) 4096 [7, 8]) 22 3000]

theorem downloaded_of_run_pieces :
    Downloaded 500 [7, 8] (run (step steadyCore) (emptyRequest.connect steadyCore)
      ([.tick 0] ++ .input (peerSegment 500 101 (tcpSyn ||| tcpAck) 4096 []) 20 1000 :: pieces)) := by
  refine (downloaded_of_run steadyCore emptyRequest rfl [.tick 0]
    (peerSegment 500 101 (tcpSyn ||| tcpAck) 4096 []) 20 1000 pieces rfl rfl [7, 8] (by decide)
    ?_).2.2.1
  intro b size now hb _
  simp only [pieces, List.mem_cons, List.not_mem_nil, or_false, Event.input.injEq] at hb
  rcases hb with ⟨rfl, rfl, -⟩ | ⟨rfl, rfl, -⟩
  · refine ⟨⟨by decide, ?_, by decide⟩, by decide⟩
    decide
  · refine ⟨⟨by decide, ?_, by decide⟩, by decide⟩
    decide

/-! ## A byte behind the stream -/

/-- The peer of an empty stream sends one byte, at the place of the FIN. -/
theorem not_downloaded :
    (emptyRequest.connect steadyCore).state = .synSent ∧
    (run (step steadyCore) (emptyRequest.connect steadyCore)
      [.tick 0, .input (peerSegment 500 101 (tcpSyn ||| tcpAck) 4096 []) 20 1000]).state =
        .established ∧
    Delivers 500 [] (peerSegment 501 101 tcpAck 4096 [7]) 21 ∧
    ¬ (run (step steadyCore) (emptyRequest.connect steadyCore)
      [.tick 0, .input (peerSegment 500 101 (tcpSyn ||| tcpAck) 4096 []) 20 1000,
        .input (peerSegment 501 101 tcpAck 4096 [7]) 21 2000]).file <+: [] := by
  refine ⟨rfl, rfl, ⟨by decide, ?_, by decide⟩, by decide +kernel⟩
  intro j _ i hi
  exact absurd hi (Nat.not_lt_zero i)

end JordyOS.Transport
