import JordyOS.Transport.Invariant

/-!
# Segments sent

A segment handed to `emit`, read the way its receiver reads it.  The header `output` writes is read
back as it was meant, and the payload is the data `output` was given.
-/

namespace JordyOS.Transport

open Machine Net

/-! ## Reading a segment -/

namespace Emission

def sequence (e : Emission) : UInt32 := netRead32 (e.bytes.shift 4)

def acknowledgement (e : Emission) : UInt32 := netRead32 (e.bytes.shift 8)

def flags (e : Emission) : UInt8 := e.bytes 13

def length (e : Emission) : ℕ := e.size - headerLength e.bytes

def payload (e : Emission) : Memory := e.bytes.shift (headerLength e.bytes)

end Emission

/-! ## The bytes of a segment -/

section Bytes

variable (localPort peerPort : UInt16) (receiveNext rxSize seq : UInt32) (flags : UInt8)
  (data : Memory) (size : UInt32)

/-- Options and payload leave the fixed header alone. -/
theorem segmentBytes_fixed {i : ℕ} (hi : i < 20) :
    (segmentBytes localPort peerPort receiveNext rxSize seq flags data size).1 i =
      netWrite16 (((netWrite32 (netWrite32 (netWrite16 (netWrite16 Memory.zero 0 localPort) 2
        peerPort) 4 seq) 8 receiveNext).set 12
        (UInt8.ofNat ((if has flags tcpSyn then 24 else 20) / 4) <<< 4)).set 13 flags) 14
        (min32 4096 (tcpBuffer + 1 - rxSize)).toUInt16 i := by
  have hheader : i < if has flags tcpSyn then 24 else 20 := by
    split <;> omega
  unfold segmentBytes
  simp only
  split
  · rw [Memory.copy_below _ _ hheader]
    split
    · rw [netWrite16_of_ne _ _ (by omega), Memory.set_of_ne _ _ (by omega),
        Memory.set_of_ne _ _ (by omega)]
    · rfl
  · split
    · rw [netWrite16_of_ne _ _ (by omega), Memory.set_of_ne _ _ (by omega),
        Memory.set_of_ne _ _ (by omega)]
    · rfl

theorem segmentBytes_sequence :
    netRead32 ((segmentBytes localPort peerPort receiveNext rxSize seq flags data size).1.shift 4) =
      seq := by
  rw [← netRead32_netWrite32 (netWrite16 (netWrite16 Memory.zero 0 localPort) 2 peerPort) 4 seq]
  refine netRead32_congr fun i hi ↦ ?_
  rw [Memory.shift_apply, segmentBytes_fixed _ _ _ _ _ _ _ _ (by omega),
    netWrite16_of_ne _ _ (by omega), Memory.set_of_ne _ _ (by omega),
    Memory.set_of_ne _ _ (by omega), netWrite32_of_ne _ _ (by omega), netRead32_netWrite32]
  rfl

theorem segmentBytes_acknowledgement :
    netRead32 ((segmentBytes localPort peerPort receiveNext rxSize seq flags data size).1.shift 8) =
      receiveNext := by
  rw [← netRead32_netWrite32 (netWrite32 (netWrite16 (netWrite16 Memory.zero 0 localPort) 2 peerPort)
    4 seq) 8 receiveNext]
  refine netRead32_congr fun i hi ↦ ?_
  rw [Memory.shift_apply, segmentBytes_fixed _ _ _ _ _ _ _ _ (by omega),
    netWrite16_of_ne _ _ (by omega), Memory.set_of_ne _ _ (by omega),
    Memory.set_of_ne _ _ (by omega), netRead32_netWrite32]
  rfl

theorem segmentBytes_flags :
    (segmentBytes localPort peerPort receiveNext rxSize seq flags data size).1 13 = flags := by
  rw [segmentBytes_fixed _ _ _ _ _ _ _ _ (by omega), netWrite16_of_ne _ _ (by omega),
    Memory.set_self]

theorem segmentBytes_headerLength :
    headerLength (segmentBytes localPort peerPort receiveNext rxSize seq flags data size).1 =
      if has flags tcpSyn then 24 else 20 := by
  rw [headerLength, segmentBytes_fixed _ _ _ _ _ _ _ _ (by omega), netWrite16_of_ne _ _ (by omega),
    Memory.set_of_ne _ _ (by omega), Memory.set_self]
  split <;> rfl

theorem segmentBytes_size :
    (segmentBytes localPort peerPort receiveNext rxSize seq flags data size).2 =
      (if has flags tcpSyn then 24 else 20) + size.toNat := rfl

theorem segmentBytes_payload {j : ℕ} (hj : j < size.toNat) :
    (segmentBytes localPort peerPort receiveNext rxSize seq flags data size).1
      ((if has flags tcpSyn then 24 else 20) + j) = data j := by
  have hsize : size ≠ 0 := by
    rintro rfl
    simp at hj
  unfold segmentBytes
  simp only [if_pos hsize]
  exact Memory.copy_inside _ _ hj

theorem segmentBytes_ports :
    netRead16 (segmentBytes localPort peerPort receiveNext rxSize seq flags data size).1 = localPort ∧
      netRead16 ((segmentBytes localPort peerPort receiveNext rxSize seq flags data size).1.shift 2) =
        peerPort := by
  constructor
  · refine Eq.trans (netRead16_congr fun i hi ↦ ?_) (netRead16_netWrite16 Memory.zero 0 localPort)
    rw [segmentBytes_fixed _ _ _ _ _ _ _ _ (by omega), netWrite16_of_ne _ _ (by omega),
      Memory.set_of_ne _ _ (by omega), Memory.set_of_ne _ _ (by omega), netWrite32_of_ne _ _ (by omega),
      netWrite32_of_ne _ _ (by omega), netWrite16_of_ne _ _ (by omega), Memory.shift_zero]
  · refine Eq.trans (netRead16_congr fun i hi ↦ ?_)
      (netRead16_netWrite16 (netWrite16 Memory.zero 0 localPort) 2 peerPort)
    rw [Memory.shift_apply, segmentBytes_fixed _ _ _ _ _ _ _ _ (by omega),
      netWrite16_of_ne _ _ (by omega), Memory.set_of_ne _ _ (by omega), Memory.set_of_ne _ _ (by omega),
      netWrite32_of_ne _ _ (by omega), netWrite32_of_ne _ _ (by omega)]
    rfl

theorem segmentBytes_window :
    (netRead16 ((segmentBytes localPort peerPort receiveNext rxSize seq flags data size).1.shift
      14)).toUInt32 = receiveWindow rxSize := by
  have hfield : netRead16 ((segmentBytes localPort peerPort receiveNext rxSize seq flags data size).1.shift
      14) = (receiveWindow rxSize).toUInt16 := by
    refine Eq.trans (netRead16_congr fun i hi ↦ ?_) (netRead16_netWrite16 ?_ 14 _)
    rw [Memory.shift_apply, segmentBytes_fixed _ _ _ _ _ _ _ _ (by omega)]
    rfl
  have hle : (receiveWindow rxSize).toNat < 65536 := by
    have hlimit : (4096 : UInt32).toNat = 4096 := rfl
    rw [receiveWindow, toNat_min32, hlimit]
    omega
  apply UInt32.toNat_inj.mp
  rw [hfield, UInt16.toNat_toUInt32, UInt32.toNat_toUInt16, Nat.mod_eq_of_lt hle]

/-- The checksum field is left to the caller. -/
theorem segmentBytes_checksum {i : ℕ} (hlow : 16 ≤ i) (hhigh : i < 20) :
    (segmentBytes localPort peerPort receiveNext rxSize seq flags data size).1 i = 0 := by
  rw [segmentBytes_fixed _ _ _ _ _ _ _ _ hhigh, netWrite16_of_ne _ _ (by omega),
    Memory.set_of_ne _ _ (by omega), Memory.set_of_ne _ _ (by omega), netWrite32_of_ne _ _ (by omega),
    netWrite32_of_ne _ _ (by omega), netWrite16_of_ne _ _ (by omega), netWrite16_of_ne _ _ (by omega)]
  rfl

/-- The options of a SYN. -/
theorem segmentBytes_options (hsyn : has flags tcpSyn = true) :
    (segmentBytes localPort peerPort receiveNext rxSize seq flags data size).1 20 = 2 ∧
      (segmentBytes localPort peerPort receiveNext rxSize seq flags data size).1 21 = 4 ∧
      netRead16 ((segmentBytes localPort peerPort receiveNext rxSize seq flags data size).1.shift 22) =
        tcpMss.toUInt16 := by
  -- The payload, if any, is behind them.
  have hbelow : ∀ b : Memory, ∀ i < 24, (if size ≠ 0 then b.copy 24 data size.toNat else b) i = b i := by
    intro b i hi
    split
    · exact Memory.copy_below _ _ hi
    · rfl
  unfold segmentBytes
  simp only [hsyn, if_true]
  refine ⟨?_, ?_, ?_⟩
  · rw [hbelow _ 20 (by decide), netWrite16_of_ne _ _ (by decide), Memory.set_of_ne _ _ (by decide),
      Memory.set_self]
  · rw [hbelow _ 21 (by decide), netWrite16_of_ne _ _ (by decide), Memory.set_self]
  · refine Eq.trans (netRead16_congr fun i hi ↦ ?_) (netRead16_netWrite16 ?_ 22 tcpMss.toUInt16)
    rw [Memory.shift_apply, hbelow _ _ (by omega)]
    rfl

end Bytes

namespace Endpoint

variable (v : Endpoint) (seq : UInt32) (flags : UInt8) (data : Memory) (size : UInt32)
  (accepted : Bool)

@[simp]
theorem emission_sequence : (v.emission seq flags data size accepted).sequence = seq :=
  segmentBytes_sequence _ _ _ _ _ _ _ _

@[simp]
theorem emission_acknowledgement :
    (v.emission seq flags data size accepted).acknowledgement = v.receiver.receiveNext :=
  segmentBytes_acknowledgement _ _ _ _ _ _ _ _

@[simp]
theorem emission_flags : (v.emission seq flags data size accepted).flags = flags :=
  segmentBytes_flags _ _ _ _ _ _ _ _

@[simp]
theorem emission_length : (v.emission seq flags data size accepted).length = size.toNat := by
  unfold Emission.length emission
  simp only [segmentBytes_headerLength, segmentBytes_size, Nat.add_sub_cancel_left]

@[simp]
theorem emission_accepted : (v.emission seq flags data size accepted).accepted = accepted := rfl

theorem emission_payload {j : ℕ} (hj : j < size.toNat) :
    (v.emission seq flags data size accepted).payload j = data j := by
  unfold Emission.payload emission
  rw [Memory.shift_apply, segmentBytes_headerLength]
  exact segmentBytes_payload _ _ _ _ _ _ _ _ hj

/-! ## What a transition sends -/

/-- The segments both entry points may hand to `emit`: bare ones and slots of the queue. -/
inductive Resends (v : Endpoint) : Emission → Prop
  | control (flags : UInt8) (accepted : Bool) (hflags : flags = tcpAck ∨ flags = tcpRst ||| tcpAck)
      (hstate : v.ackPending = true ∨ v.Connected) :
      Resends v (v.emission v.sender.next flags Memory.zero 0 accepted)
  | queued (i : Fin tcpSlots) (accepted : Bool) (hstate : v.state = .synSent ∨ v.Live)
      (hused : (v.sender.slots i).used = true) :
      Resends v (v.emission (v.sender.slots i).sequence (v.sender.slots i).flags
        (v.slotData (v.sender.slots i)) (v.sender.slots i).length accepted)

/-- The segments a tick may hand to `emit`. -/
inductive Sends (probing : Prop) (v : Endpoint) : Emission → Prop
  | resend {e : Emission} (h : Resends v e) : Sends probing v e
  | syn (accepted : Bool) (hstate : v.state = .synSent) :
      Sends probing v (v.emission v.sender.isn tcpSyn Memory.zero 0 accepted)
  | probe (accepted : Bool) (hprobing : probing) (hstate : v.Connected) :
      Sends probing v (v.emission (v.sender.next - 1) tcpAck (Memory.ofList [v.probeByte]) 1 accepted)
  | data (length : UInt32) (accepted : Bool) (hstate : v.Connected) (hopen : v.sender.ownFin = false)
      (hroom : length ≤ v.sender.txSize - v.sender.txOffset)
      (houtstanding : v.sender.next - v.sender.una < v.window.size.toUInt32)
      (hwindow : length ≤ v.window.size.toUInt32 - (v.sender.next - v.sender.una)) :
      Sends probing v (v.emission v.sender.next (tcpAck ||| tcpPsh)
        (v.sender.tx.shift v.sender.txOffset.toNat) length accepted)
  | fin (accepted : Bool) (hstate : v.Connected) (hopen : v.sender.ownFin = false)
      (houtstanding : v.sender.next - v.sender.una < v.window.size.toUInt32) :
      Sends probing v (v.emission v.sender.next (tcpAck ||| tcpFin) Memory.zero 0 accepted)

/-- The history of `emit` grows from `v` to `w` by segments that satisfy a predicate. -/
def Extends (predicate : Emission → Prop) (v w : Endpoint) : Prop :=
  ∃ sent, w.context = sent ++ v.context ∧ ∀ e ∈ sent, predicate e

variable {predicate other : Emission → Prop} {u v w : Endpoint}

theorem extends_of_eq (h : w.context = v.context) : Extends predicate v w := ⟨[], h, by simp⟩

theorem extends_of_cons {e : Emission} (h : w.context = e :: v.context) (he : predicate e) :
    Extends predicate v w := ⟨[e], h, by simpa using he⟩

theorem Extends.mono (h : Extends predicate v w) (himp : ∀ e, predicate e → other e) :
    Extends other v w := by
  obtain ⟨sent, hcontext, hsent⟩ := h
  exact ⟨sent, hcontext, fun e he ↦ himp e (hsent e he)⟩

theorem Extends.trans (hfirst : Extends predicate u v) (hsecond : Extends predicate v w) :
    Extends predicate u w := by
  obtain ⟨first, hfirstContext, hfirst⟩ := hfirst
  obtain ⟨second, hsecondContext, hsecond⟩ := hsecond
  refine ⟨second ++ first, by rw [hsecondContext, hfirstContext, List.append_assoc], ?_⟩
  intro e he
  rcases List.mem_append.mp he with he | he
  · exact hsecond e he
  · exact hfirst e he

theorem Abandon.extends {reason : String} (h : Abandon v reason w) : Extends (Resends v) v w := by
  cases h with
  | silent => exact extends_of_eq rfl
  | reset accepted hstate =>
    exact extends_of_cons rfl (Resends.control _ accepted (Or.inr rfl) (Or.inr hstate))

theorem Retransmit.extends (h : Retransmit v w) (hstate : v.state = .synSent ∨ v.Live) :
    Extends (Resends v) v w := by
  cases h with
  | wait => exact extends_of_eq rfl
  | resend i accepted hused => exact extends_of_cons rfl (Resends.queued i accepted hstate hused)
  | abandon h => exact h.extends

theorem Acknowledge.extends (h : Acknowledge v w) : Extends (Resends v) v w := by
  cases h with
  | none => exact extends_of_eq rfl
  | send accepted hpending =>
    exact extends_of_cons rfl (Resends.control _ accepted (Or.inl rfl) (Or.inl hpending))

theorem Action.extends {probing : Prop} (h : Action probing v w)
    (hstate : v.state = .synSent ∨ v.Connected) : Extends (Sends probing v) v w := by
  cases h with
  | retransmit h =>
    exact (h.extends (hstate.imp_right Connected.live)).mono fun e he ↦ Sends.resend he
  | syn accepted hsyn => exact extends_of_cons rfl (Sends.syn accepted hsyn)
  | complete => exact extends_of_eq rfl
  | probe accepted hprobing hconnected =>
    exact extends_of_cons rfl (Sends.probe accepted hprobing hconnected)
  | data slot length accepted hconnected hopen hslot hpos hmss hroom houtstanding hwindow =>
    refine extends_of_cons rfl ?_
    have hdata : v.slotData ⟨v.sender.next, v.sender.txOffset, length, tcpAck ||| tcpPsh, true⟩ =
        v.sender.tx.shift v.sender.txOffset.toNat := if_pos hpos
    rw [hdata]
    exact Sends.data length accepted hconnected hopen hroom houtstanding hwindow
  | fin slot accepted hconnected hopen hslot hall hidle houtstanding =>
    exact extends_of_cons rfl (Sends.fin accepted hconnected hopen houtstanding)

/-- Nothing a tick sends depends on the pending acknowledgement or on the history. -/
theorem Sends.of_acknowledge {probing : Prop} {e : Emission} (h : Acknowledge v w)
    (he : Sends probing w e) : Sends probing v e := by
  have hframe : ∃ context ackPending, (ackPending = true → v.ackPending = true) ∧
      w = { v with context := context, ackPending := ackPending } := by
    cases h with
    | none => exact ⟨v.context, v.ackPending, id, rfl⟩
    | send accepted hpending => exact ⟨_, _, fun _ ↦ hpending, rfl⟩
  obtain ⟨context, ackPending, hpending, rfl⟩ := hframe
  cases he with
  | resend h =>
    cases h with
    | control flags accepted hflags hstate =>
      exact Sends.resend (Resends.control flags accepted hflags (hstate.imp_left hpending))
    | queued i accepted hstate hused =>
      exact Sends.resend (Resends.queued i accepted hstate hused)
  | syn accepted hstate => exact Sends.syn accepted hstate
  | probe accepted hprobing hstate => exact Sends.probe accepted hprobing hstate
  | data length accepted hstate hopen hroom houtstanding hwindow =>
    exact Sends.data length accepted hstate hopen hroom houtstanding hwindow
  | fin accepted hstate hopen houtstanding => exact Sends.fin accepted hstate hopen houtstanding

theorem Tick.extends {probing : Prop} (h : Tick probing v w) : Extends (Sends probing v) v w := by
  have hresend : ∀ e, Resends v e → Sends probing v e := fun e ↦ Sends.resend
  cases h with
  | rest => exact extends_of_eq rfl
  | deadline _ h => exact h.extends.mono hresend
  | done _ h => exact h.extends.mono hresend
  | act hstate h haction =>
    have hlive := haction.extends (by rw [Connected, h.state_eq]; exact hstate)
    exact (h.extends.mono hresend).trans (hlive.mono fun e he ↦ Sends.of_acknowledge h he)

/-- Nothing sent again depends on the window. -/
theorem Resends.of_window {window : Window} {e : Emission}
    (h : Resends { v with window := window } e) : Resends v e := by
  cases h with
  | control flags accepted hflags hstate => exact Resends.control flags accepted hflags hstate
  | queued i accepted hstate hused => exact Resends.queued i accepted hstate hused

theorem Acked.extends {x : Segment} (h : Acked v x w) (hlive : v.Live) :
    Extends (Resends v) v w := by
  cases h with
  | keep => exact extends_of_eq rfl
  | duplicate _ h => exact (h.extends (Or.inr hlive)).mono fun e he ↦ he.of_window
  | advance => exact extends_of_eq rfl

/-- What the acknowledgement of a segment leaves alone. -/
theorem Acked.frame {x : Segment} (h : Acked v x w) :
    ∃ state error sender window context, sender.next = v.sender.next ∧
      (state = v.state ∨ state = .failed) ∧ w = { v with
        state := state, error := error, sender := sender, window := window, context := context } := by
  cases h with
  | keep => exact ⟨v.state, v.error, v.sender, _, v.context, rfl, Or.inl rfl, rfl⟩
  | duplicate _ h =>
    cases h with
    | wait => exact ⟨v.state, v.error, v.sender, _, v.context, rfl, Or.inl rfl, rfl⟩
    | resend i accepted => exact ⟨v.state, v.error, v.sender, _, _, rfl, Or.inl rfl, rfl⟩
    | abandon h =>
      cases h with
      | silent => exact ⟨_, _, v.sender, _, v.context, rfl, Or.inr rfl, rfl⟩
      | reset accepted => exact ⟨_, _, v.sender, _, _, rfl, Or.inr rfl, rfl⟩
  | advance =>
    exact ⟨v.state, v.error, v.sender.acknowledge x.acknowledgement, _, v.context, rfl, Or.inl rfl,
      rfl⟩

theorem Received.extends {x : Segment} (hacked : Acked u x v) (h : Received v x w) :
    Extends (Resends u) v w := by
  cases h with
  | empty => exact extends_of_eq rfl
  | skip => exact extends_of_eq rfl
  | overflow _ _ _ h =>
    cases h with
    | silent => exact extends_of_eq rfl
    | reset accepted hstate =>
      refine extends_of_cons rfl ?_
      obtain ⟨state, error, sender, window, context, hnext, hsame, rfl⟩ := hacked.frame
      have hconnected : u.Connected := by
        rcases hsame with rfl | rfl
        · exact hstate
        · rcases hstate with hfailed | hfailed <;> cases hfailed
      have hcontrol := Resends.control (v := u) (tcpRst ||| tcpAck) accepted (Or.inr rfl)
        (Or.inr hconnected)
      rw [← hnext] at hcontrol
      exact hcontrol
  | store => exact extends_of_eq rfl

theorem Input.extends {x : Segment} (h : Input v x w) : Extends (Resends v) v w := by
  cases h with
  | ignore => exact extends_of_eq rfl
  | refuse => exact extends_of_eq rfl
  | establish => exact extends_of_eq rfl
  | note => exact extends_of_eq rfl
  | reset => exact extends_of_eq rfl
  | stream hx hacked hreceived =>
    exact (hacked.extends hx.live).trans (hreceived.extends hacked)

end Endpoint

/-! ## Runs -/

variable {ρ : Type} (core : LarpCore ρ)

/-- What one call hands to `emit`. -/
theorem step_extends (c : Tcp ρ) (event : Event) :
    Endpoint.Extends (Endpoint.Sends (∃ now, event = .tick now ∧ Probes c now) c.endpoint)
      c.endpoint (step core c event).endpoint := by
  cases event with
  | input b size now =>
    exact (tcpInput_endpoint core c b size now).extends.mono fun e he ↦ Endpoint.Sends.resend he
  | tick now =>
    refine (tcpTick_endpoint core c now).extends.mono fun e he ↦ ?_
    cases he with
    | resend h => exact Endpoint.Sends.resend h
    | syn accepted hstate => exact Endpoint.Sends.syn accepted hstate
    | probe accepted hprobing hstate =>
      exact Endpoint.Sends.probe accepted ⟨now, rfl, hprobing⟩ hstate
    | data length accepted hstate hopen hroom houtstanding hwindow =>
      exact Endpoint.Sends.data length accepted hstate hopen hroom houtstanding hwindow
    | fin accepted hstate hopen houtstanding =>
      exact Endpoint.Sends.fin accepted hstate hopen houtstanding

/-- What was handed to `emit` is never forgotten. -/
theorem mem_context_run {c : Tcp ρ} {e : Emission} (he : e ∈ c.context) (events : List Event) :
    e ∈ (run (step core) c events).context := by
  refine run_invariant (step core) (fun d ↦ e ∈ d.context) events he fun d event hd ↦ ?_
  obtain ⟨sent, hcontext, -⟩ := step_extends core d event
  have hcontext' : (step core d event).context = sent ++ d.context := hcontext
  rw [hcontext']
  exact List.mem_append_right sent hd

end JordyOS.Transport
