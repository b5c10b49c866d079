import JordyOS.Machine.Run
import JordyOS.Net.Packet
import Mathlib.Algebra.GroupWithZero.Nat
import Mathlib.Data.List.FinRange

/-!
# The active-open TCP connection

The connection record and its three entry points `tcp_start`, `tcp_input` and `tcp_tick`, together
with every function they call.  The record is kept flat and the machine words keep the width they
have in C, so that all arithmetic wraps where the program's does.

The congestion controller is a separate vendored component.  It is a parameter `core`: its state is
opaque apart from the three fields the connection reads or writes, and its functions are arbitrary.

The callback `emit` is an arbitrary function of everything handed to it before and of the segment it
is given now; `context` accumulates that history.  Any pattern of transmission failures over a run
is the behaviour of some such callback.
-/

namespace JordyOS.Transport

open Machine Net

/-! ## Data -/

def tcpBuffer : UInt32 := 16384
abbrev tcpSlots : ℕ := 16

instance neZero_tcpSlots : NeZero tcpSlots := ⟨by decide⟩

def tcpMss : UInt32 := 536

def tcpFin : UInt8 := 1
def tcpSyn : UInt8 := 2
def tcpRst : UInt8 := 4
def tcpPsh : UInt8 := 8
def tcpAck : UInt8 := 16

/-- `flags & mask` is not zero. -/
def has (flags mask : UInt8) : Bool := flags &&& mask != 0

inductive TcpState
  | idle
  | synSent
  | established
  | closing
  | done
  | failed
  deriving DecidableEq, Repr

structure TcpSegment where
  sequence : UInt32 := 0
  offset : UInt32 := 0
  length : UInt32 := 0
  delivered : UInt32 := 0
  sentUs : UInt64 := 0
  deliveredUs : UInt64 := 0
  flightUs : UInt64 := 0
  flags : UInt8 := 0
  retries : UInt8 := 0
  used : Bool := false
  appLimited : Bool := false

/-- `struct larp_model`; the fields the connection never touches stay in `rest`. -/
structure LarpModel (ρ : Type) where
  rate : UInt64
  minRttUs : UInt64
  rttStampUs : UInt64
  rest : ρ

structure LarpFeedback where
  nowUs : UInt64 := 0
  rttUs : UInt32 := 0
  inflight : UInt32 := 0
  loss : Bool := false
  inRecovery : Bool := false
  ecn : Bool := false
  appLimited : Bool := false
  windowLimited : Bool := false
  validDelivery : Bool := false
  deliveryRate : UInt64 := 0
  sampleStartUs : UInt64 := 0

inductive LarpRecovery
  | larpOpen
  | larpRecovery
  | larpTimeout
  deriving DecidableEq

/-- The vendored controller: its cleared state and its entry points. -/
structure LarpCore (ρ : Type) where
  zeroed : LarpModel ρ
  start : UInt64 → UInt64 → UInt64 → UInt64 → UInt64 → LarpModel ρ
  update : LarpModel ρ → LarpFeedback → LarpModel ρ
  window : LarpModel ρ → UInt32 → UInt32 → UInt32
  ackWindow : UInt32 → UInt32 → UInt32 → UInt32 → UInt32 → LarpRecovery → UInt32
  min : UInt64 → UInt64 → UInt64
  max : UInt64 → UInt64 → UInt64
  div : UInt64 → UInt64 → UInt64

/-- One call of `emit`: the segment handed over and whether the call succeeded. -/
structure Emission where
  bytes : Memory
  size : ℕ
  accepted : Bool

structure Tcp (ρ : Type) where
  state : TcpState
  error : Option String
  localPort : UInt16
  peerPort : UInt16
  mss : UInt16
  peerWindow : UInt16
  isn : UInt32
  una : UInt32
  next : UInt32
  receiveNext : UInt32
  windowSeq : UInt32
  windowAck : UInt32
  txSize : UInt32
  txOffset : UInt32
  rxSize : UInt32
  delivered : UInt32
  cwnd : UInt32
  recoveryEnd : UInt32
  srttUs : UInt32
  rttvarUs : UInt32
  rtoUs : UInt32
  dupacks : UInt32
  retransmits : UInt32
  timeouts : UInt32
  fastRetransmits : UInt32
  feedbacks : UInt32
  invalidAcks : UInt32
  pacedPackets : UInt32
  minimumGapUs : UInt32
  startedUs : UInt64
  nextSendUs : UInt64
  timerUs : UInt64
  deliveredUs : UInt64
  flightUs : UInt64
  probeUs : UInt64
  lastDataUs : UInt64
  ownFin : Bool
  ownFinAcked : Bool
  peerFin : Bool
  ackPending : Bool
  recovery : Bool
  larp : LarpModel ρ
  pending : Fin tcpSlots → TcpSegment
  tx : Memory
  rx : Memory
  emit : List Emission → Memory → ℕ → Bool
  context : List Emission

variable {ρ : Type} (core : LarpCore ρ)

/-- The connection after `memset(c, 0, sizeof *c)`. -/
def zeroed : Tcp ρ where
  state := .idle
  error := none
  localPort := 0
  peerPort := 0
  mss := 0
  peerWindow := 0
  isn := 0
  una := 0
  next := 0
  receiveNext := 0
  windowSeq := 0
  windowAck := 0
  txSize := 0
  txOffset := 0
  rxSize := 0
  delivered := 0
  cwnd := 0
  recoveryEnd := 0
  srttUs := 0
  rttvarUs := 0
  rtoUs := 0
  dupacks := 0
  retransmits := 0
  timeouts := 0
  fastRetransmits := 0
  feedbacks := 0
  invalidAcks := 0
  pacedPackets := 0
  minimumGapUs := 0
  startedUs := 0
  nextSendUs := 0
  timerUs := 0
  deliveredUs := 0
  flightUs := 0
  probeUs := 0
  lastDataUs := 0
  ownFin := false
  ownFinAcked := false
  peerFin := false
  ackPending := false
  recovery := false
  larp := core.zeroed
  pending := fun _ ↦ {}
  tx := Memory.zero
  rx := Memory.zero
  emit := fun _ _ _ ↦ false
  context := []

/-! ## Helpers -/

def before (a b : UInt32) : Bool := decide ((a - b).toInt32 < 0)

def min32 (a b : UInt32) : UInt32 := if a < b then a else b

def inflight (c : Tcp ρ) : UInt32 :=
  (List.finRange tcpSlots).foldl (fun n i ↦ if (c.pending i).used then n + 1 else n) 0

/-- The older of a slot already found and slot `i`. -/
def older (c : Tcp ρ) (s : Option (Fin tcpSlots)) (i : Fin tcpSlots) : Option (Fin tcpSlots) :=
  if (c.pending i).used && s.all fun j ↦ before (c.pending i).sequence (c.pending j).sequence
  then some i else s

def oldest (c : Tcp ρ) : Option (Fin tcpSlots) := (List.finRange tcpSlots).foldl (older c) none

/-- The header and payload `output` builds, with their total size. -/
def segmentBytes (localPort peerPort : UInt16) (receiveNext rxSize seq : UInt32) (flags : UInt8)
    (data : Memory) (size : UInt32) : Memory × ℕ :=
  let header := if has flags tcpSyn then 24 else 20
  let b := netWrite16 Memory.zero 0 localPort
  let b := netWrite16 b 2 peerPort
  let b := netWrite32 b 4 seq
  let b := netWrite32 b 8 receiveNext
  let b := b.set 12 (UInt8.ofNat (header / 4) <<< 4)
  let b := b.set 13 flags
  -- One byte of sequence space is kept in reserve for the peer's EOF at the file-size limit.
  let b := netWrite16 b 14 (min32 4096 (tcpBuffer + 1 - rxSize)).toUInt16
  let b := if has flags tcpSyn then netWrite16 ((b.set 20 2).set 21 4) 22 tcpMss.toUInt16 else b
  let b := if size ≠ 0 then b.copy header data size.toNat else b
  (b, header + size.toNat)

def output (c : Tcp ρ) (seq : UInt32) (flags : UInt8) (data : Memory) (size : UInt32) :
    Tcp ρ × Bool :=
  let (bytes, total) :=
    segmentBytes c.localPort c.peerPort c.receiveNext c.rxSize seq flags data size
  let accepted := c.emit c.context bytes total
  ({ c with context := ⟨bytes, total, accepted⟩ :: c.context }, accepted)

def tcpAbort (c : Tcp ρ) (reason : String) : Tcp ρ :=
  let c := if c.state = .established ∨ c.state = .closing
    then (output c c.next (tcpRst ||| tcpAck) Memory.zero 0).1 else c
  { c with state := .failed, error := some reason }

/-- Pacing after a segment with data. -/
def pace (c : Tcp ρ) (length : UInt32) (now : UInt64) : Tcp ρ :=
  let gap := now - c.lastDataUs
  { c with
    minimumGapUs := if c.lastDataUs ≠ 0 ∧ gap < c.minimumGapUs.toUInt64
      then gap.toUInt32 else c.minimumGapUs
    lastDataUs := now
    pacedPackets := c.pacedPackets + 1
    -- Scheduling starts from the transmission itself: unused credit is never carried over.
    nextSendUs := now + core.max 1
      (core.div (length.toUInt64 * 1000000 + c.larp.rate - 1) c.larp.rate) }

/-- Send one segment and, when it carries data, schedule the next one.  The segment comes back with
its transmission time. -/
def transmit (c : Tcp ρ) (s : TcpSegment) (now : UInt64) : Tcp ρ × TcpSegment × Bool :=
  let (c, sent) := output c s.sequence s.flags
    (if s.length ≠ 0 then c.tx.shift s.offset.toNat else Memory.zero) s.length
  if !sent then (c, s, false)
  else (if s.length ≠ 0 then pace core c s.length now else c, { s with sentUs := now }, true)

def feedback (c : Tcp ρ) (f : LarpFeedback) (acked : UInt32) (recovery : LarpRecovery) : Tcp ρ :=
  let c := { c with larp := core.update c.larp f, feedbacks := c.feedbacks + 1 }
  let target := core.window c.larp c.mss.toUInt32 (UInt32.ofNat tcpSlots)
  { c with
    cwnd := core.ackWindow c.cwnd target (inflight c) acked (UInt32.ofNat tcpSlots) recovery }

/-! ## Opening -/

/-- `data` is `none` for a null pointer. -/
def tcpStart (localPort peerPort : UInt16) (isn : UInt32) (data : Option Memory) (size : ℕ)
    (now : UInt64) (emit : List Emission → Memory → ℕ → Bool) (context : List Emission) :
    Tcp ρ :=
  let c := { zeroed core with emit := emit, context := context }
  if localPort = 0 ∨ peerPort = 0 ∨ size > tcpBuffer.toNat ∨ (size ≠ 0 ∧ data = none) then
    { c with state := .failed, error := some "invalid TCP transfer" }
  else
  let c := { c with tx := c.tx.copy 0 (data.getD Memory.zero) size }
  let c := { c with
    txSize := UInt32.ofNat size, localPort := localPort, peerPort := peerPort
    isn := isn, una := isn, next := isn, mss := tcpMss.toUInt16
    rtoUs := 1000000, minimumGapUs := 0xffffffff
    startedUs := now, state := .synSent
    larp := core.start 125000000 125000 0 500 now }
  { c with cwnd := core.window c.larp c.mss.toUInt32 (UInt32.ofNat tcpSlots) }

/-! ## Timers and loss -/

def rttSample (c : Tcp ρ) (rtt : UInt32) : Tcp ρ :=
  let rtt := if rtt = 0 then 1 else rtt
  let difference := if c.srttUs > rtt then c.srttUs - rtt else rtt - c.srttUs
  let rttvar := if c.srttUs = 0 then rtt / 2 else (3 * c.rttvarUs + difference) / 4
  let srtt := if c.srttUs = 0 then rtt else (7 * c.srttUs + rtt) / 8
  { c with
    srttUs := srtt
    rttvarUs := rttvar
    rtoUs := (core.min 60000000 (core.max 1000000
      (srtt.toUInt64 + core.max 1000 (4 * rttvar.toUInt64)))).toUInt32 }

/-- Counters and timer after a retransmission of slot `i`. -/
def retransmitted (c : Tcp ρ) (i : Fin tcpSlots) (s : TcpSegment) (now : UInt64) (timeout : Bool) :
    Tcp ρ :=
  { c with
    pending := Function.update c.pending i { s with retries := s.retries + 1 }
    retransmits := c.retransmits + 1
    timerUs := now
    timeouts := if timeout then c.timeouts + 1 else c.timeouts
    rtoUs := if timeout then min32 60000000 (c.rtoUs * 2) else c.rtoUs
    fastRetransmits := if timeout then c.fastRetransmits else c.fastRetransmits + 1 }

/-- The controller's reaction to a loss. -/
def enterRecovery (c : Tcp ρ) (now : UInt64) (timeout : Bool) : Tcp ρ :=
  feedback core
    { c with cwnd := if timeout then 1 else c.cwnd, recovery := true, recoveryEnd := c.next }
    { nowUs := now, loss := true, inRecovery := true, inflight := inflight c } 0
    (if timeout then .larpTimeout else .larpRecovery)

def loss (c : Tcp ρ) (now : UInt64) (timeout : Bool) : Tcp ρ :=
  match oldest c with
  | none => c
  | some i =>
    if (c.pending i).retries ≥ 8 then tcpAbort c "retransmission limit"
    else if now < c.nextSendUs ∧ (c.pending i).length ≠ 0 then c
    else
      let (c, s, sent) := transmit core c (c.pending i) now
      if !sent then c
      else
        let c := retransmitted c i s now timeout
        -- A lost SYN moves the handshake timer only.
        if c.state = .synSent then c else enterRecovery core c now timeout

/-! ## Acknowledgement -/

/-- The variables of the scan over the slots in `ack`. -/
structure AckScan where
  pending : Fin tcpSlots → TcpSegment
  ownFinAcked : Bool
  packets : UInt32
  bytes : UInt32
  retransmitted : Bool
  haveSample : Bool
  sample : TcpSegment

/-- The sequence numbers a segment occupies. -/
def sequenceSize (s : TcpSegment) : UInt32 :=
  s.length + (if has s.flags (tcpSyn ||| tcpFin) then 1 else 0)

def ackSlot (acknowledgement : UInt32) (a : AckScan) (i : Fin tcpSlots) : AckScan :=
  let s := a.pending i
  if !s.used || !before s.sequence acknowledgement then a
  else
    let consumed := acknowledgement - s.sequence
    let newest := s.retries == 0 && (!a.haveSample || before a.sample.sequence s.sequence)
    let whole := decide (consumed ≥ sequenceSize s)
    { pending := Function.update a.pending i
        (if whole then { s with used := false }
        else { s with
          sequence := s.sequence + consumed
          offset := s.offset + consumed
          length := s.length - consumed })
      ownFinAcked := if whole && has s.flags tcpFin then true else a.ownFinAcked
      packets := if whole then a.packets + 1 else a.packets
      bytes := if whole then a.bytes + s.length else a.bytes + consumed
      retransmitted := a.retransmitted || s.retries != 0
      haveSample := if newest then true else a.haveSample
      sample := if newest then s else a.sample }

/-- The scan over all slots. -/
def ackScan (c : Tcp ρ) (acknowledgement : UInt32) : AckScan :=
  (List.finRange tcpSlots).foldl (ackSlot acknowledgement)
    { pending := c.pending, ownFinAcked := c.ownFinAcked, packets := 0, bytes := 0
      retransmitted := false, haveSample := false, sample := {} }

/-- The connection after the scan. -/
def acked (c : Tcp ρ) (a : AckScan) (acknowledgement : UInt32) (now : UInt64) : Tcp ρ :=
  { c with
    pending := a.pending
    ownFinAcked := a.ownFinAcked
    una := acknowledgement
    dupacks := 0
    timerUs := now
    delivered := c.delivered + a.bytes }

/-- The round-trip time taken from a scan, 0 when there is none. -/
def sampledRtt (a : AckScan) (now : UInt64) : UInt32 :=
  if a.haveSample && !a.retransmitted
  then (core.min (now - a.sample.sentUs) 60000000).toUInt32 else 0

/-- What the controller is told about an acknowledgement. -/
def ackFeedback (c : Tcp ρ) (a : AckScan) (now : UInt64) : LarpFeedback :=
  let interval := if a.haveSample
    then core.max (now - a.sample.deliveredUs) (a.sample.sentUs - a.sample.flightUs) else 0
  let delivered := if a.haveSample then c.delivered - a.sample.delivered else 0
  { nowUs := now, rttUs := sampledRtt core a now, inflight := inflight c
    inRecovery := c.recovery, ecn := false
    appLimited := !a.haveSample || a.sample.appLimited
    windowLimited := a.haveSample && !a.sample.appLimited
    validDelivery := !a.retransmitted && decide (delivered ≥ 4 * c.mss.toUInt32) &&
      decide (interval ≥ core.max (c.larp.minRttUs / 8) 1)
    deliveryRate := if interval ≠ 0 then core.div (delivered.toUInt64 * 1000000) interval else 0
    sampleStartUs := if a.haveSample then a.sample.deliveredUs else 0 }

/-- The controller's reaction to an acknowledgement. -/
def ackControl (c : Tcp ρ) (a : AckScan) (acknowledgement : UInt32) (now : UInt64) : Tcp ρ :=
  let c := if a.haveSample && !a.retransmitted then rttSample core c (sampledRtt core a now) else c
  let c := feedback core c (ackFeedback core c a now) a.packets
    (if c.recovery then .larpRecovery else .larpOpen)
  { c with
    deliveredUs := now
    recovery := if c.recovery && !before acknowledgement c.recoveryEnd then false else c.recovery }

def ack (c : Tcp ρ) (acknowledgement : UInt32) (now : UInt64) : Tcp ρ :=
  if before acknowledgement c.una || before c.next acknowledgement then
    { c with invalidAcks := c.invalidAcks + 1 }
  else if acknowledgement = c.una then
    if (oldest c).isNone then c
    else if c.dupacks + 1 = 3 ∧ !c.recovery
    then loss core { c with dupacks := c.dupacks + 1 } now false
    else { c with dupacks := c.dupacks + 1 }
  else
    let a := ackScan c acknowledgement
    ackControl core (acked c a acknowledgement now) a acknowledgement now

/-! ## Input -/

/-- The option list of a SYN/ACK from offset `i` on: the negotiated segment size, or `none` when
the list is malformed.  Every round advances `i`, so `fuel = header` rounds are enough. -/
def synOptions (b : Memory) (header : ℕ) : ℕ → ℕ → UInt32 → Option UInt32
  | 0, _, mss => some mss
  | fuel + 1, i, mss =>
    if i ≥ header then some mss else
    let kind := b i
    if kind = 0 then some mss else
    if kind = 1 then synOptions b header fuel (i + 1) mss else
    if i + 1 ≥ header ∨ b (i + 1) < 2 ∨ i + (b (i + 1)).toNat > header then none else
    if kind = 2 then
      if b (i + 1) ≠ 4 ∨ netRead16 (b.shift (i + 2)) = 0 then none else
      synOptions b header fuel (i + (b (i + 1)).toNat)
        (min32 mss (netRead16 (b.shift (i + 2))).toUInt32)
    else synOptions b header fuel (i + (b (i + 1)).toNat) mss

/-- Timers after the handshake; a retransmitted SYN gives no round-trip time. -/
def handshakeTimer (c : Tcp ρ) (first : TcpSegment) (now : UInt64) : Tcp ρ :=
  if first.retries = 0 then
    let c := rttSample core c (core.min (now - first.sentUs) 60000000).toUInt32
    { c with larp := { c.larp with minRttUs := c.srttUs.toUInt64, rttStampUs := now } }
  else { c with rtoUs := 3000000 }

/-- The fields taken from the SYN/ACK. -/
def answered (c : Tcp ρ) (b : Memory) (seq a mss : UInt32) : Tcp ρ :=
  { c with
    mss := mss.toUInt16
    receiveNext := seq + 1
    peerWindow := netRead16 (b.shift 14)
    windowSeq := seq
    windowAck := a
    una := a
    pending := Function.update c.pending 0 { c.pending 0 with used := false } }

/-- `tcp_input` in state SYN-SENT. -/
def synSentInput (c : Tcp ρ) (b : Memory) (header : ℕ) (seq a : UInt32) (flags : UInt8)
    (length : UInt32) (now : UInt64) : Tcp ρ :=
  if has flags tcpRst && has flags tcpAck && a == c.isn + 1 then
    tcpAbort c "connection refused"
  else if flags &&& (tcpSyn ||| tcpAck ||| tcpRst ||| tcpFin) ≠ tcpSyn ||| tcpAck ∨
      a ≠ c.isn + 1 ∨ c.next ≠ a ∨ length ≠ 0 then c
  else
    match synOptions b header header 20 tcpMss with
    | none => c
    | some mss =>
      let c := handshakeTimer core (answered c b seq a mss) (c.pending 0) now
      { c with state := .established, ackPending := true, deliveredUs := now }

/-- The receive window is the one the latest segment advertised. -/
def receiveWindow (rxSize : UInt32) : UInt32 := min32 4096 (tcpBuffer + 1 - rxSize)

def acceptable (receiveNext rxSize seq length : UInt32) (flags : UInt8) : Bool :=
  let window := receiveWindow rxSize
  let sequenceLength := length + (if has flags tcpFin then 1 else 0)
  if sequenceLength ≠ 0 then
    if !before seq (receiveNext + window) then false
    else !before (seq + sequenceLength - 1) receiveNext
  else seq == receiveNext ||
    (window != 0 && !before seq receiveNext && before seq (receiveNext + window))

/-- The window fields after a segment, and whether the window changed. -/
def windowUpdate (c : Tcp ρ) (b : Memory) (seq a : UInt32) : Tcp ρ × Bool :=
  let update := before c.windowSeq seq || (c.windowSeq == seq && !before a c.windowAck)
  let changed := update && c.peerWindow != netRead16 (b.shift 14)
  ({ c with
      peerWindow := if update then netRead16 (b.shift 14) else c.peerWindow
      windowSeq := if update then seq else c.windowSeq
      windowAck := if update then a else c.windowAck
      dupacks := if changed then 0 else c.dupacks }, changed)

/-- The number of payload bytes in front of `receiveNext`. -/
def overlap (receiveNext seq length : UInt32) : UInt32 :=
  if before seq receiveNext then min32 (receiveNext - seq) length else 0

/-- A segment without its overlap: stored when it is the next in order. -/
def store (c : Tcp ρ) (data : Memory) (seq : UInt32) (flags : UInt8) (length : UInt32) : Tcp ρ :=
  if !c.peerFin && seq == c.receiveNext then
    if length > tcpBuffer - c.rxSize
    then tcpAbort { c with ackPending := true } "receive file exceeds 16 KiB"
    else
      { c with
        ackPending := true
        rx := c.rx.copy c.rxSize.toNat data length.toNat
        rxSize := c.rxSize + length
        receiveNext := c.receiveNext + length + (if has flags tcpFin then 1 else 0)
        peerFin := c.peerFin || has flags tcpFin }
  else { c with ackPending := true }

/-- Payload and FIN of an acceptable segment. -/
def receive (c : Tcp ρ) (b : Memory) (header : ℕ) (seq : UInt32) (flags : UInt8)
    (length : UInt32) : Tcp ρ :=
  let trim := overlap c.receiveNext seq length
  store c ((b.shift trim.toNat).shift header) (seq + trim) flags (length - trim)

/-- The window, the acknowledgement and the payload of a segment that passed every check. -/
def acceptedInput (c : Tcp ρ) (b : Memory) (header : ℕ) (seq a : UInt32) (flags : UInt8)
    (length : UInt32) (now : UInt64) : Tcp ρ :=
  let (c, windowChanged) := windowUpdate c b seq a
  -- Segments with data and window updates are not duplicate-loss signals.
  let c := if a ≠ c.una ∨ (length = 0 ∧ !has flags tcpFin ∧ !windowChanged)
    then ack core c a now else c
  if length ≠ 0 ∨ has flags tcpFin then receive c b header seq flags length else c

/-- `tcp_input` once the connection is established. -/
def streamInput (c : Tcp ρ) (b : Memory) (header : ℕ) (seq a : UInt32) (flags : UInt8)
    (length : UInt32) (now : UInt64) : Tcp ρ :=
  if has flags tcpRst then
    if seq = c.receiveNext then { c with state := .failed, error := some "peer reset" }
    else { c with ackPending := true }
  -- Exact duplicate of the SYN/ACK after our handshake ACK was lost.
  else if has flags tcpSyn && has flags tcpAck && seq + 1 == c.receiveNext && a == c.isn + 1 then
    { c with ackPending := true }
  else if has flags tcpSyn || !has flags tcpAck then c
  else if !acceptable c.receiveNext c.rxSize seq length flags then { c with ackPending := true }
  else if before c.next a then { c with invalidAcks := c.invalidAcks + 1, ackPending := true }
  else if before a c.una then c
  else acceptedInput core c b header seq a flags length now

/-- Header length announced by the data-offset field. -/
def headerLength (b : Memory) : ℕ := (b 12 >>> 4).toNat * 4

/-- The checks of `tcp_input` on the fixed header and the ports. -/
def addressed (c : Tcp ρ) (b : Memory) (size : ℕ) : Bool :=
  !(decide (size < 20) || decide (b 12 >>> 4 < 5) || decide (headerLength b > size) ||
    netRead16 b != c.peerPort || netRead16 (b.shift 2) != c.localPort)

def tcpInput (c : Tcp ρ) (b : Memory) (size : ℕ) (now : UInt64) : Tcp ρ :=
  if !addressed c b size then c else
  let header := headerLength b
  let seq := netRead32 (b.shift 4)
  let a := netRead32 (b.shift 8)
  let flags := b 13
  let length := UInt32.ofNat (size - header)
  if c.state = .synSent then synSentInput core c b header seq a flags length now
  else if c.state ≠ .established ∧ c.state ≠ .closing ∧ c.state ≠ .done then c
  else streamInput core c b header seq a flags length now

/-! ## Tick -/

/-- Send the pending acknowledgement; it stays pending when `emit` refuses it. -/
def acknowledge (c : Tcp ρ) : Tcp ρ :=
  if c.ackPending then
    let (c, sent) := output c c.next tcpAck Memory.zero 0
    { c with ackPending := !sent }
  else c

def sendSyn (c : Tcp ρ) (now : UInt64) : Tcp ρ :=
  if c.next ≠ c.isn then c else
  let (c, s, sent) := transmit core c { sequence := c.isn, flags := tcpSyn, used := true } now
  if sent then
    { c with pending := Function.update c.pending 0 s, next := c.next + 1, timerUs := now }
  else c

/-- The zero-window probe: the byte before `next`, or a zero byte when nothing was sent yet. -/
def probe (c : Tcp ρ) (now : UInt64) : Tcp ρ :=
  let byte := if c.txOffset ≠ 0 then c.tx (c.txOffset - 1).toNat else 0
  let (c, sent) := output c (c.next - 1) tcpAck (Memory.ofList [byte]) 1
  { c with probeUs := if sent then now else c.probeUs }

def freeSlot (c : Tcp ρ) : Option (Fin tcpSlots) :=
  (List.finRange tcpSlots).find? fun i ↦ !(c.pending i).used

/-- An empty queue starts a new flight. -/
def startFlight (c : Tcp ρ) (now : UInt64) : Tcp ρ :=
  { c with
    flightUs := if inflight c = 0 then now else c.flightUs
    deliveredUs := if inflight c = 0 then now else c.deliveredUs }

/-- The segment after the last one sent: new data as far as there is some and the window allows. -/
def nextSegment (c : Tcp ρ) : TcpSegment where
  sequence := c.next
  offset := c.txOffset
  flags := tcpAck ||| tcpPsh
  delivered := c.delivered
  deliveredUs := c.deliveredUs
  flightUs := c.flightUs
  appLimited := decide (c.txSize - (c.una - c.isn - 1) <
    min32 (c.cwnd * c.mss.toUInt32) c.peerWindow.toUInt32)
  used := true
  length := min32 c.mss.toUInt32
    (min32 (c.txSize - c.txOffset) (c.peerWindow.toUInt32 - (c.next - c.una)))

/-- A transmitted segment enters the queue. -/
def enqueue (c : Tcp ρ) (slot : Fin tcpSlots) (s : TcpSegment) (idle : Bool) (now : UInt64) : Tcp ρ :=
  { c with
    timerUs := if idle then now else c.timerUs
    pending := Function.update c.pending slot s
    next := c.next + s.length + (if has s.flags tcpFin then 1 else 0)
    txOffset := c.txOffset + s.length
    ownFin := if has s.flags tcpFin then true else c.ownFin
    state := if has s.flags tcpFin then .closing else c.state }

/-- Send the next segment and give it a slot. -/
def sendSegment (c : Tcp ρ) (slot : Fin tcpSlots) (idle : Bool) (now : UInt64) : Tcp ρ :=
  let s := nextSegment c
  -- The FIN follows acknowledged data only.
  if s.length = 0 ∧ (c.txOffset ≠ c.txSize ∨ inflight c ≠ 0) then c
  else
    let (c, s, sent) := transmit core c
      { s with flags := if s.length = 0 then tcpAck ||| tcpFin else s.flags } now
    if sent then enqueue c slot s idle now else c

/-- New data, or the FIN once all data is acknowledged. -/
def sendNext (c : Tcp ρ) (now : UInt64) : Tcp ρ :=
  if c.ownFin ∨ now < c.nextSendUs ∨ inflight c ≥ c.cwnd then c
  else if c.next - c.una ≥ c.peerWindow.toUInt32 then c
  else
    match freeSlot c with
    | none => c
    | some slot => sendSegment core (startFlight c now) slot (oldest c).isNone now

def timerDue (c : Tcp ρ) (now : UInt64) : Bool :=
  (oldest c).isSome && decide (now - c.timerUs ≥ c.rtoUs.toUInt64)

def probeDue (c : Tcp ρ) (now : UInt64) : Bool :=
  c.peerWindow == 0 && decide (now - c.probeUs ≥ 1000000)

def tcpTick (c : Tcp ρ) (now : UInt64) : Tcp ρ :=
  if c.state = .idle ∨ c.state = .failed then c
  else if c.state ≠ .done ∧ now - c.startedUs > 120000000 then
    tcpAbort c "120-second transfer deadline"
  else
  let c := acknowledge c
  if c.state = .done then c
  else if timerDue c now then loss core c now true
  else if c.state = .synSent then sendSyn core c now
  else if c.ownFinAcked && c.peerFin && !c.ackPending then { c with state := .done }
  else if probeDue c now then probe c now
  else sendNext core c now

/-! ## Runs -/

/-- A call made on a connection in progress. -/
inductive Event
  | input (b : Memory) (size : ℕ) (now : UInt64)
  | tick (now : UInt64)

def step (c : Tcp ρ) : Event → Tcp ρ
  | .input b size now => tcpInput core c b size now
  | .tick now => tcpTick core c now

/-- Any call, opening a connection included. -/
inductive Call
  | start (localPort peerPort : UInt16) (isn : UInt32) (data : Option Memory) (size : ℕ) (now : UInt64)
      (emit : List Emission → Memory → ℕ → Bool) (context : List Emission)
  | event (event : Event)

def perform (c : Tcp ρ) : Call → Tcp ρ
  | .start localPort peerPort isn data size now emit context =>
    tcpStart core localPort peerPort isn data size now emit context
  | .event event => step core c event

/-- The arguments of `tcp_start`, for a callback that has been handed nothing so far. -/
structure Request where
  localPort : UInt16
  peerPort : UInt16
  isn : UInt32
  data : Option Memory
  size : ℕ
  now : UInt64
  emit : List Emission → Memory → ℕ → Bool

namespace Request

def connect (r : Request) : Tcp ρ :=
  tcpStart core r.localPort r.peerPort r.isn r.data r.size r.now r.emit []

/-- The upload: a null pointer stands for the empty one. -/
def tx (r : Request) : Memory := r.data.getD Memory.zero

def txSize (r : Request) : UInt32 := UInt32.ofNat r.size

end Request

/-! ## Concrete peers -/

/-- A controller that always allows `tcpSlots` segments in flight. -/
def steadyCore : LarpCore Unit where
  zeroed := ⟨0, 0, 0, ()⟩
  start rate rtt _ _ now := ⟨rate, rtt, now, ()⟩
  update model _ := model
  window _ _ slots := slots
  ackWindow _ target _ _ _ _ := target
  min a b := if a < b then a else b
  max a b := if a < b then b else a
  div a b := a / b

/-- A segment from port 2 to port 1, without options. -/
def peerSegment (seq a : UInt32) (flags : UInt8) (window : UInt16) (payload : List UInt8) : Memory :=
  let b := netWrite16 (netWrite16 Memory.zero 0 2) 2 1
  let b := ((netWrite32 (netWrite32 b 4 seq) 8 a).set 12 0x50).set 13 flags
  (netWrite16 b 14 window).copy 20 (Memory.ofList payload) payload.length

end JordyOS.Transport
