import JordyOS.Transport.Sender

/-!
# The endpoint

What is left of a connection when timing and congestion control are taken away: the sending half,
the receiving half, the window the peer granted, and the segments handed to `emit`.  A call of the
program is one transition of this machine.  Whether a timer has expired or the congestion window
has room is not decided here; a transition says only what a call may do.
-/

namespace JordyOS.Transport

open Machine Net

/-! ## Segments received -/

/-- The fields of a segment that the established connection reads. -/
structure Segment where
  sequence : UInt32
  acknowledgement : UInt32
  flags : UInt8
  window : UInt16
  length : UInt32
  payload : Memory

def readSegment (b : Memory) (size : ℕ) : Segment where
  sequence := netRead32 (b.shift 4)
  acknowledgement := netRead32 (b.shift 8)
  flags := b 13
  window := netRead16 (b.shift 14)
  length := UInt32.ofNat (size - headerLength b)
  payload := b.shift (headerLength b)

/-- A segment without the payload received before. -/
def Segment.trim (x : Segment) (receiveNext : UInt32) : Segment :=
  { x with
    sequence := x.sequence + overlap receiveNext x.sequence x.length
    length := x.length - overlap receiveNext x.sequence x.length
    payload := x.payload.shift (overlap receiveNext x.sequence x.length).toNat }

/-! ## State -/

structure Receiver where
  receiveNext : UInt32
  rxSize : UInt32
  peerFin : Bool
  rx : Memory

/-- A segment in order is appended to the file; its FIN takes one more sequence number. -/
def Receiver.store (r : Receiver) (x : Segment) : Receiver where
  receiveNext := r.receiveNext + x.length + (if has x.flags tcpFin then 1 else 0)
  rxSize := r.rxSize + x.length
  peerFin := r.peerFin || has x.flags tcpFin
  rx := r.rx.copy r.rxSize.toNat x.payload x.length.toNat

/-- The window the peer granted last and the segment that granted it. -/
structure Window where
  size : UInt16
  sequence : UInt32
  acknowledgement : UInt32

/-- A segment changes the window unless it is older than the one that granted it. -/
def Window.newer (w : Window) (x : Segment) : Bool :=
  before w.sequence x.sequence ||
    (w.sequence == x.sequence && !before x.acknowledgement w.acknowledgement)

def Window.update (w : Window) (x : Segment) : Window :=
  if w.newer x then ⟨x.window, x.sequence, x.acknowledgement⟩ else w

structure Endpoint where
  state : TcpState
  error : Option String
  localPort : UInt16
  peerPort : UInt16
  sender : Sender
  receiver : Receiver
  window : Window
  ackPending : Bool
  context : List Emission

namespace Endpoint

/-- The segment `output` builds, and what became of it. -/
def emission (v : Endpoint) (seq : UInt32) (flags : UInt8) (data : Memory) (size : UInt32)
    (accepted : Bool) : Emission where
  bytes := (segmentBytes v.localPort v.peerPort v.receiver.receiveNext v.receiver.rxSize
    seq flags data size).1
  size := (segmentBytes v.localPort v.peerPort v.receiver.receiveNext v.receiver.rxSize
    seq flags data size).2
  accepted := accepted

def send (v : Endpoint) (seq : UInt32) (flags : UInt8) (data : Memory) (size : UInt32)
    (accepted : Bool) : Endpoint :=
  { v with context := v.emission seq flags data size accepted :: v.context }

/-- The data `transmit` takes for a slot. -/
def slotData (v : Endpoint) (x : Slot) : Memory :=
  if x.length ≠ 0 then v.sender.tx.shift x.offset.toNat else Memory.zero

/-- Send a slot of the queue. -/
def sendSlot (v : Endpoint) (x : Slot) (accepted : Bool) : Endpoint :=
  v.send x.sequence x.flags (v.slotData x) x.length accepted

def fail (v : Endpoint) (reason : String) : Endpoint :=
  { v with state := .failed, error := some reason }

/-- The connection is open for data or closing. -/
def Connected (v : Endpoint) : Prop := v.state = .established ∨ v.state = .closing

/-- The handshake is behind and the connection has not failed. -/
def Live (v : Endpoint) : Prop :=
  v.state = .established ∨ v.state = .closing ∨ v.state = .done

/-! ## Transitions shared by both entry points -/

/-- The connection is given up; the peer of an open connection is told. -/
inductive Abandon (v : Endpoint) (reason : String) : Endpoint → Prop
  | silent : Abandon v reason (v.fail reason)
  | reset (accepted : Bool) (hstate : v.Connected) :
      Abandon v reason ((v.send v.sender.next (tcpRst ||| tcpAck) Memory.zero 0 accepted).fail reason)

/-- A queued segment is sent again, or has been sent too often. -/
inductive Retransmit (v : Endpoint) : Endpoint → Prop
  | wait : Retransmit v v
  | resend (i : Fin tcpSlots) (accepted : Bool) (hused : (v.sender.slots i).used = true) :
      Retransmit v (v.sendSlot (v.sender.slots i) accepted)
  | abandon {w : Endpoint} (h : Abandon v "retransmission limit" w) : Retransmit v w

/-! ## Ticks -/

inductive Acknowledge (v : Endpoint) : Endpoint → Prop
  | none (hpending : v.ackPending = false) : Acknowledge v v
  | send (accepted : Bool) (hpending : v.ackPending = true) :
      Acknowledge v { v.send v.sender.next tcpAck Memory.zero 0 accepted with
        ackPending := !accepted }

/-- The byte of a zero-window probe. -/
def probeByte (v : Endpoint) : UInt8 :=
  if v.sender.txOffset ≠ 0 then v.sender.tx (v.sender.txOffset - 1).toNat else 0

/-- What a tick does once the pending acknowledgement is out of the way.  `probing` is the condition
under which it sends a zero-window probe. -/
inductive Action (probing : Prop) (v : Endpoint) : Endpoint → Prop
  | retransmit {w : Endpoint} (h : Retransmit v w) : Action probing v w
  | syn (accepted : Bool) (hstate : v.state = .synSent) (hnext : v.sender.next = v.sender.isn) :
      Action probing v { v.sendSlot ⟨v.sender.isn, 0, 0, tcpSyn, true⟩ accepted with
        sender := if accepted then v.sender.sendSyn else v.sender }
  | complete (hstate : v.Connected) (hacked : v.sender.ownFinAcked = true)
      (hfin : v.receiver.peerFin = true) (hpending : v.ackPending = false) :
      Action probing v { v with state := .done }
  | probe (accepted : Bool) (hprobing : probing) (hstate : v.Connected)
      (hwindow : v.window.size = 0) :
      Action probing v (v.send (v.sender.next - 1) tcpAck (Memory.ofList [v.probeByte]) 1 accepted)
  | data (slot : Fin tcpSlots) (length : UInt32) (accepted : Bool) (hstate : v.Connected)
      (hopen : v.sender.ownFin = false) (hslot : (v.sender.slots slot).used = false)
      (hpos : length ≠ 0) (hmss : length ≤ v.sender.mss.toUInt32)
      (hroom : length ≤ v.sender.txSize - v.sender.txOffset)
      (houtstanding : v.sender.next - v.sender.una < v.window.size.toUInt32)
      (hwindow : length ≤ v.window.size.toUInt32 - (v.sender.next - v.sender.una)) :
      Action probing v { v.sendSlot ⟨v.sender.next, v.sender.txOffset, length, tcpAck ||| tcpPsh, true⟩
          accepted with
        sender := if accepted then v.sender.push slot length else v.sender }
  | fin (slot : Fin tcpSlots) (accepted : Bool) (hstate : v.Connected)
      (hopen : v.sender.ownFin = false) (hslot : (v.sender.slots slot).used = false)
      (hall : v.sender.txOffset = v.sender.txSize)
      (hidle : ∀ i, (v.sender.slots i).used = false)
      (houtstanding : v.sender.next - v.sender.una < v.window.size.toUInt32) :
      Action probing v { v.sendSlot ⟨v.sender.next, v.sender.txOffset, 0, tcpAck ||| tcpFin, true⟩
          accepted with
        sender := if accepted then v.sender.close slot else v.sender
        state := if accepted then .closing else v.state }

inductive Tick (probing : Prop) (v : Endpoint) : Endpoint → Prop
  | rest (hstate : v.state = .idle ∨ v.state = .failed) : Tick probing v v
  | deadline {w : Endpoint} (hstate : v.state ≠ .done)
      (h : Abandon v "120-second transfer deadline" w) : Tick probing v w
  | done {w : Endpoint} (hstate : v.state = .done) (h : Acknowledge v w) : Tick probing v w
  | act {w x : Endpoint} (hstate : v.state = .synSent ∨ v.Connected) (h : Acknowledge v w)
      (haction : Action probing w x) : Tick probing v x

/-! ## Segments -/

/-- The checks a segment passes before its acknowledgement and payload count. -/
structure Accepts (v : Endpoint) (x : Segment) : Prop where
  live : v.Live
  noReset : has x.flags tcpRst = false
  noSyn : has x.flags tcpSyn = false
  isAck : has x.flags tcpAck = true
  acceptable : acceptable v.receiver.receiveNext v.receiver.rxSize x.sequence x.length x.flags = true
  ack_le : before v.sender.next x.acknowledgement = false
  le_ack : before x.acknowledgement v.sender.una = false

/-- The window and the acknowledgement of a segment take effect. -/
inductive Acked (v : Endpoint) (x : Segment) : Endpoint → Prop
  | keep (hsame : x.acknowledgement = v.sender.una) :
      Acked v x { v with window := v.window.update x }
  | duplicate {w : Endpoint} (hsame : x.acknowledgement = v.sender.una)
      (h : Retransmit { v with window := v.window.update x } w) : Acked v x w
  | advance (hnew : x.acknowledgement ≠ v.sender.una) :
      Acked v x { v with
        window := v.window.update x
        sender := v.sender.acknowledge x.acknowledgement }

/-- Payload and FIN of a segment take effect. -/
inductive Received (v : Endpoint) (x : Segment) : Endpoint → Prop
  | empty (hlength : x.length = 0) (hfin : has x.flags tcpFin = false) : Received v x v
  | skip (hskip : v.receiver.peerFin = true ∨
        (x.trim v.receiver.receiveNext).sequence ≠ v.receiver.receiveNext) :
      Received v x { v with ackPending := true }
  | overflow {w : Endpoint} (hfin : v.receiver.peerFin = false)
      (hsequence : (x.trim v.receiver.receiveNext).sequence = v.receiver.receiveNext)
      (hlength : (x.trim v.receiver.receiveNext).length > tcpBuffer - v.receiver.rxSize)
      (h : Abandon { v with ackPending := true } "receive file exceeds 16 KiB" w) : Received v x w
  | store (hfin : v.receiver.peerFin = false)
      (hsequence : (x.trim v.receiver.receiveNext).sequence = v.receiver.receiveNext)
      (hlength : (x.trim v.receiver.receiveNext).length ≤ tcpBuffer - v.receiver.rxSize) :
      Received v x { v with
        ackPending := true
        receiver := v.receiver.store (x.trim v.receiver.receiveNext) }

/-- The SYN/ACK that answers our SYN. -/
structure Answers (v : Endpoint) (x : Segment) : Prop where
  state : v.state = .synSent
  flags : x.flags &&& (tcpSyn ||| tcpAck ||| tcpRst ||| tcpFin) = tcpSyn ||| tcpAck
  acknowledgement : x.acknowledgement = v.sender.isn + 1
  next : v.sender.next = x.acknowledgement
  length : x.length = 0

/-- The connection after the handshake, with the segment size agreed. -/
def establish (v : Endpoint) (x : Segment) (mss : UInt16) : Endpoint :=
  { v with
    state := .established
    sender := v.sender.establish mss x.acknowledgement
    receiver := { v.receiver with receiveNext := x.sequence + 1 }
    window := ⟨x.window, x.sequence, x.acknowledgement⟩
    ackPending := true }

inductive Input (v : Endpoint) (x : Segment) : Endpoint → Prop
  | ignore : Input v x v
  | refuse (hstate : v.state = .synSent) : Input v x (v.fail "connection refused")
  | establish (mss : UInt16) (h : v.Answers x) (hpos : 1 ≤ mss.toNat)
      (hle : mss.toNat ≤ tcpMss.toNat) : Input v x (v.establish x mss)
  | note (hstate : v.Live) : Input v x { v with ackPending := true }
  | reset (hstate : v.Live) : Input v x (v.fail "peer reset")
  | stream {w y : Endpoint} (h : v.Accepts x) (hacked : Acked v x w) (hreceived : Received w x y) :
      Input v x y

end Endpoint

/-! ## Start -/

/-- The endpoint after a successful `tcp_start`. -/
@[simps]
def Endpoint.start (localPort peerPort : UInt16) (isn : UInt32) (tx : Memory) (txSize : UInt32)
    (context : List Emission) : Endpoint where
  state := .synSent
  error := none
  localPort := localPort
  peerPort := peerPort
  sender := ⟨isn, isn, isn, txSize, 0, 0, tcpMss.toUInt16, false, false, tx,
    fun _ ↦ ⟨0, 0, 0, 0, false⟩⟩
  receiver := ⟨0, 0, false, Memory.zero⟩
  window := ⟨0, 0, 0⟩
  ackPending := false
  context := context

/-! ## The endpoint of a connection -/

variable {ρ : Type}

@[simps]
def TcpSegment.slot (s : TcpSegment) : Slot := ⟨s.sequence, s.offset, s.length, s.flags, s.used⟩

namespace Tcp

@[simps]
def sender (c : Tcp ρ) : Sender :=
  ⟨c.isn, c.una, c.next, c.txSize, c.txOffset, c.delivered, c.mss, c.ownFin, c.ownFinAcked, c.tx,
    fun i ↦ (c.pending i).slot⟩

@[simps]
def receiver (c : Tcp ρ) : Receiver := ⟨c.receiveNext, c.rxSize, c.peerFin, c.rx⟩

@[simps]
def window (c : Tcp ρ) : Window := ⟨c.peerWindow, c.windowSeq, c.windowAck⟩

@[simps]
def endpoint (c : Tcp ρ) : Endpoint :=
  ⟨c.state, c.error, c.localPort, c.peerPort, c.sender, c.receiver, c.window, c.ackPending,
    c.context⟩

end Tcp

end JordyOS.Transport
