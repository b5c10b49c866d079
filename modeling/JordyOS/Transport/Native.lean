import JordyOS.Transport.Finality
import JordyOS.Transport.Frame

/-!
# Transfers of the shell

`tcp_native.c` runs one connection at a time for the shell command `tcp` and remembers the last completed
ones.  The command waits in two loops, for the address of the peer and for the end of the transfer; frames,
keys and ticks arrive in between.  Its stretches between the loops are functions of their own, and
`Foreground` says where it stands.
-/

namespace JordyOS.Transport

open Machine Net

/-! ## State -/

structure TimeWait where
  ip : UInt32
  next : UInt32
  acknowledgement : UInt32
  localPort : UInt16
  remote : UInt16
  mac : Memory
  expires : UInt64

abbrev timewaitSlots : ℕ := 8

/-- What is handed to `send_to` and `rtl_send`. -/
inductive Outgoing
  | segment (ip : UInt32) (mac body : Memory) (size : ℕ)
  | arp (frame : Memory)

/-- The place of `tcp_command` with its variables `wait`, `local`, `port`, `size` and `end`. -/
inductive Foreground
  | idle
  | resolving (wait : Fin timewaitSlots) (port : UInt32) (size : ℕ) (deadline : UInt64)
  | transferring (wait : Fin timewaitSlots) (localPort remote : UInt16)

/-- The static variables, and `next_arp` of the loop that waits for the peer. -/
structure Native (ρ : Type) where
  connection : Tcp ρ
  running : Bool
  resolving : Bool
  haveMac : Bool
  clockReady : Bool
  peerIp : UInt32
  nextPort : UInt32
  peerMac : Memory
  source : Memory
  timewait : Fin timewaitSlots → TimeWait
  sent : List Outgoing
  nextArp : UInt64
  foreground : Foreground

variable {ρ : Type} (core : LarpCore ρ) (netMac : Memory)

/-- The static variables after boot. -/
def booted : Native ρ where
  connection := zeroed core
  running := false
  resolving := false
  haveMac := false
  clockReady := false
  peerIp := 0
  nextPort := 49152
  peerMac := Memory.zero
  source := Memory.zero
  timewait := fun _ ↦ ⟨0, 0, 0, 0, 0, Memory.zero, 0⟩
  sent := []
  nextArp := 0
  foreground := .idle

/-! ## Input -/

/-- An ARP reply of the peer to our request. -/
def tcpNetArp (s : Native ρ) (f : Memory) (size : ℕ) : Native ρ :=
  if !s.resolving ∨ size < 42 ∨ netRead16 (f.shift 14) ≠ 1 ∨ netRead16 (f.shift 16) ≠ 0x0800 ∨
      f 18 ≠ 6 ∨ f 19 ≠ 4 ∨ netRead16 (f.shift 20) ≠ 2 ∨
      !sameBytes f netMac 6 ∨ !sameBytes (f.shift 6) (f.shift 22) 6 ∨ f 6 &&& 1 ≠ 0 ∨
      netRead32 (f.shift 28) ≠ s.peerIp ∨ !sameBytes (f.shift 32) netMac 6 ∨
      netRead32 (f.shift 38) ≠ netIp then s
  else { s with peerMac := s.peerMac.copy 0 (f.shift 22) 6, haveMac := true }

/-- The record has not expired and belongs to the connection of the packet. -/
def TimeWait.awaits (w : TimeWait) (packet : Packet) (now : UInt64) : Bool :=
  !(decide (w.expires ≤ now) || w.ip != packet.source || w.localPort != packet.destinationPort ||
    w.remote != packet.sourcePort)

/-- The acknowledgement of a FIN that was sent again. -/
def TimeWait.reply (w : TimeWait) : Memory :=
  let reply := netWrite16 (netWrite16 Memory.zero 0 w.localPort) 2 w.remote
  ((netWrite32 (netWrite32 reply 4 w.next) 8 w.acknowledgement).set 12 0x50).set 13 tcpAck

/-- The segment is the FIN that ended the connection. -/
def TimeWait.lastFin (w : TimeWait) (b : Memory) (size : ℕ) : Bool :=
  b 13 &&& (tcpFin ||| tcpRst) == tcpFin &&
    netRead32 (b.shift 4) + UInt32.ofNat (size - headerLength b) + 1 == w.acknowledgement

def tcpNetInput (s : Native ρ) (frame : Memory) (packet : Packet) (now : UInt64) : Native ρ :=
  let b := frame.shift 34
  let size := packet.length.toNat - 20
  if !s.clockReady then s
  else
    match (List.finRange timewaitSlots).find? fun i ↦ (s.timewait i).awaits packet now with
    | some i =>
      let w := s.timewait i
      if w.lastFin b size then
        { s with
          sent := s.sent ++ [.segment w.ip w.mac w.reply 20]
          timewait := Function.update s.timewait i { w with expires := now + 120000000 } }
      else s
    | none =>
      if s.running ∧ packet.source = s.peerIp ∧ sameBytes (frame.shift 6) s.peerMac 6 then
        { s with connection := tcpInput core s.connection b size now }
      else s

def tcpNetPoll (s : Native ρ) (now : UInt64) : Native ρ :=
  if s.running then { s with connection := tcpTick core s.connection now } else s

def tcpNetDown (s : Native ρ) : Native ρ :=
  { s with
    connection :=
      if s.running then tcpAbort s.connection "network interface stopped" else s.connection
    haveMac := false }

/-! ## The command -/

/-- What a transfer sends: the test pattern, a RAM file with the result of `sys_read_file`, or nothing. -/
inductive Upload
  | demo
  | file (contents : Option (List UInt8))
  | nothing

/-- `source` and `size`; `none` when the file cannot be read. -/
def Upload.load (source : Memory) : Upload → Option (Memory × ℕ)
  | .demo => some (source.copy 0 (fun i ↦ UInt8.ofNat (i * 37 + i / 256)) 16384, 16384)
  | .file none => none
  | .file (some contents) =>
    some (source.copy 0 (Memory.ofList contents) contents.length, contents.length)
  | .nothing => some (source, 0)

/-- The words of the command: the address and the port as numbers, and the length of the name of the file
that is written at the end. -/
structure Command where
  ip : UInt32
  mask : UInt32
  port : UInt32
  upload : Upload
  destination : Option ℕ

/-- `tcp_command` up to the search for the peer.  `up` is `native_network.up`, `calibrated` the result of
`clock_init`; `now` and `start` are two readings of the clock. -/
def tcpCommand (s : Native ρ) (r : Command) (up calibrated : Bool) (now start : UInt64) : Native ρ :=
  if r.mask ≠ 0xffffffff ∨ !Net.peerIp r.ip ∨ r.port > 65535 ∨ r.port = 0 then s
  else if !up then s
  else if !(s.clockReady || calibrated) then s
  else
  let s := { s with clockReady := true }
  if s.nextPort > 65535 then s
  else
    match (List.finRange timewaitSlots).find? fun i ↦ decide ((s.timewait i).expires ≤ now) with
    | none => s
    | some wait =>
      match r.upload.load s.source with
      | none => s
      | some (source, size) =>
        let s := { s with source := source }
        if r.destination.any fun length ↦ decide (length ≥ 32) then s
        else
          { s with
            peerIp := r.ip
            haveMac := false
            resolving := true
            nextArp := 0
            foreground := .resolving wait r.port size (start + 5000000) }

def arpRequest (ip : UInt32) : Memory :=
  let frame := (Memory.zero.copy 0 (fun _ ↦ 255) 6).copy 6 netMac 6
  let frame := netWrite16 (netWrite16 (netWrite16 frame 12 0x0806) 14 1) 16 0x0800
  let frame := netWrite16 ((frame.set 18 6).set 19 4) 20 1
  netWrite32 (netWrite32 (frame.copy 22 netMac 6) 28 netIp) 38 ip

/-- The body of the loop that waits for the peer; `accepted` is the result of `rtl_send`. -/
def request (s : Native ρ) (now : UInt64) (accepted : Bool) : Native ρ :=
  match s.foreground with
  | .resolving _ _ _ _ =>
    if now ≥ s.nextArp then
      { s with
        sent := s.sent ++ [.arp (arpRequest netMac s.peerIp)]
        nextArp := if accepted then now + 1000000 else s.nextArp }
    else s
  | _ => s

/-- The test of that loop and what follows it.  `test` and `now` are two readings of the clock; `emit` is
`emit`, whose result is up to the filter and the card. -/
def resolve (s : Native ρ) (up : Bool) (test now : UInt64) (isn : UInt32)
    (emit : List Emission → Memory → ℕ → Bool) : Native ρ :=
  match s.foreground with
  | .resolving wait port size deadline =>
    if !s.haveMac ∧ up ∧ test < deadline then s
    else
    let s := { s with resolving := false }
    if !s.haveMac then { s with foreground := .idle }
    else
      let localPort := s.nextPort.toUInt16
      { s with
        nextPort := s.nextPort + 1
        connection := tcpStart core localPort port.toUInt16 isn (some s.source) size now emit []
        running := true
        foreground := .transferring wait localPort port.toUInt16 }
  | _ => s

/-- A key that cancels the transfer. -/
def cancel (s : Native ρ) : Native ρ :=
  match s.foreground with
  | .transferring _ _ _ => { s with connection := tcpAbort s.connection "cancelled" }
  | _ => s

/-- The record of the connection that is over. -/
def completed (s : Native ρ) (localPort remote : UInt16) (now : UInt64) : TimeWait where
  ip := s.peerIp
  next := s.connection.next
  acknowledgement := s.connection.receiveNext
  localPort := localPort
  remote := remote
  mac := Memory.zero.copy 0 s.peerMac 6
  expires := now + 120000000

/-- The test of the loop that waits for the end of the transfer, and what follows it. -/
def finish (s : Native ρ) (now : UInt64) : Native ρ :=
  match s.foreground with
  | .transferring wait localPort remote =>
    if s.connection.state ≠ .done ∧ s.connection.state ≠ .failed then s
    else
    let s := { s with running := false, foreground := .idle }
    if s.connection.state = .done then
      { s with timewait := Function.update s.timewait wait (completed s localPort remote now) }
    else s
  | _ => s

/-! ## Runs -/

/-- What can happen next: a frame, a tick, the interface going down, a command, or progress of the command
in the foreground. -/
inductive Happening
  | arp (frame : Memory) (size : ℕ)
  | frame (frame : Memory) (size : ℕ) (now : UInt64)
  | poll (now : UInt64)
  | down
  | command (r : Command) (up calibrated : Bool) (now start : UInt64)
  | request (now : UInt64) (accepted : Bool)
  | resolve (up : Bool) (test now : UInt64) (isn : UInt32) (emit : List Emission → Memory → ℕ → Bool)
  | cancel
  | finish (now : UInt64)

/-- The readings of the clock, in their order. -/
def Happening.times : Happening → List UInt64
  | .arp _ _ => []
  | .frame _ _ now => [now]
  | .poll now => [now]
  | .down => []
  | .command _ _ _ now start => [now, start]
  | .request now _ => [now]
  | .resolve _ test now _ _ => [test, now]
  | .cancel => []
  | .finish now => [now]

/-- The TCP packet in a frame: what `net_receive` hands to `tcp_net_input`, when the policies allow it. -/
def tcpPacketOf (frame : Memory) (size : ℕ) : Option Packet :=
  (netDecode (frame.shift 14) (size - 14)).filter fun packet ↦ packet.protocol == netTcp

def advance (s : Native ρ) : Happening → Native ρ
  | .arp frame size => tcpNetArp netMac s frame size
  | .frame frame size now =>
    match tcpPacketOf frame size with
    | none => s
    | some packet => tcpNetInput core s frame packet now
  | .poll now => tcpNetPoll core s now
  | .down => tcpNetDown s
  | .command r up calibrated now start =>
    match s.foreground with
    | .idle => tcpCommand s r up calibrated now start
    -- The shell runs one command at a time.
    | _ => s
  | .request now accepted => request netMac s now accepted
  | .resolve up test now isn emit => resolve core s up test now isn emit
  | .cancel => cancel s
  | .finish now => finish s now

/-- The clock does not go backwards. -/
def Ordered (happenings : List Happening) : Prop :=
  (happenings.flatMap Happening.times).Pairwise (· ≤ ·)

/-- The local port of the connection that `tcp_command` opens on the way from one place to another. -/
def opened : Foreground → Foreground → Option UInt16
  | .resolving _ _ _ _, .transferring _ localPort _ => some localPort
  | _, _ => none

/-- The local ports of the connections of a run, the first one first. -/
def connections : Native ρ → List Happening → List UInt16
  | _, [] => []
  | s, h :: happenings =>
    (opened s.foreground (advance core netMac s h).foreground).toList ++
      connections (advance core netMac s h) happenings

/-! ## What can happen to the table and the foreground -/

/-- The connection has failed, or it uses this local port. -/
def Attached (c : Tcp ρ) (localPort : UInt16) : Prop := c.state = .failed ∨ c.localPort = localPort

theorem attached_step {c : Tcp ρ} {localPort : UInt16} (h : Attached c localPort) (event : Event) :
    Attached (step core c event) localPort := by
  rcases h with hfailed | hport
  · rw [step_of_failed core hfailed]
    exact Or.inl hfailed
  · refine Or.inr (Eq.trans ?_ hport)
    cases event with
    | input b size now =>
      exact congrArg Endpoint.Transfer.localPort (tcpInput_endpoint core c b size now).transfer_eq
    | tick now => exact congrArg Endpoint.Transfer.localPort (tcpTick_endpoint core c now).transfer_eq

theorem attached_tcpAbort (c : Tcp ρ) (reason : String) (localPort : UInt16) :
    Attached (tcpAbort c reason) localPort := Or.inl (tcpAbort_endpoint c reason).state_eq

theorem attached_tcpStart (localPort peerPort : UInt16) (isn : UInt32) (data : Option Memory) (size : ℕ)
    (now : UInt64) (emit : List Emission → Memory → ℕ → Bool) :
    Attached (tcpStart core localPort peerPort isn data size now emit []) localPort := by
  rcases tcpStart_endpoint core localPort peerPort isn data size now emit [] with hfailed | ⟨-, -, hstart⟩
  · exact Or.inl hfailed
  · exact Or.inr (congrArg Endpoint.localPort hstart)

/-- The fields the bookkeeping of the connections is about, and the connection as far as it matters. -/
structure Same (s d : Native ρ) : Prop where
  foreground : d.foreground = s.foreground
  nextPort : d.nextPort = s.nextPort
  running : d.running = s.running
  attached : ∀ localPort, Attached s.connection localPort → Attached d.connection localPort

/-- One happening, seen from the table and the foreground. -/
inductive Progress (s : Native ρ) : Happening → Native ρ → Prop
  | quiet {h : Happening} {d : Native ρ} (hsame : Same s d) (htable : d.timewait = s.timewait) :
      Progress s h d
  | extend {frame : Memory} {size : ℕ} {now : UInt64} {d : Native ρ} (i : Fin timewaitSlots)
      (halive : now < (s.timewait i).expires) (hsame : Same s d)
      (htable : d.timewait = Function.update s.timewait i
        { s.timewait i with expires := now + 120000000 }) :
      Progress s (.frame frame size now) d
  | reserve {r : Command} {up calibrated : Bool} {now start : UInt64} {d : Native ρ}
      (wait : Fin timewaitSlots) (port : UInt32) (size : ℕ) (hidle : s.foreground = .idle)
      (hexpired : (s.timewait wait).expires ≤ now) (hport : s.nextPort ≤ 65535)
      (hforeground : d.foreground = .resolving wait port size (start + 5000000))
      (hnext : d.nextPort = s.nextPort) (hrunning : d.running = s.running)
      (htable : d.timewait = s.timewait) :
      Progress s (.command r up calibrated now start) d
  | giveUp {h : Happening} {d : Native ρ} {wait : Fin timewaitSlots} {port : UInt32} {size : ℕ}
      {deadline : UInt64} (hresolving : s.foreground = .resolving wait port size deadline)
      (hforeground : d.foreground = .idle) (hnext : d.nextPort = s.nextPort)
      (hrunning : d.running = s.running) (htable : d.timewait = s.timewait) : Progress s h d
  | open {h : Happening} {d : Native ρ} {wait : Fin timewaitSlots} {port : UInt32} {size : ℕ}
      {deadline : UInt64} (hresolving : s.foreground = .resolving wait port size deadline)
      (hforeground : d.foreground = .transferring wait s.nextPort.toUInt16 port.toUInt16)
      (hnext : d.nextPort = s.nextPort + 1) (hattached : Attached d.connection s.nextPort.toUInt16)
      (htable : d.timewait = s.timewait) : Progress s h d
  | close {h : Happening} {d : Native ρ} {wait : Fin timewaitSlots} {localPort remote : UInt16}
      (htransferring : s.foreground = .transferring wait localPort remote)
      (hforeground : d.foreground = .idle) (hnext : d.nextPort = s.nextPort) (hrunning : d.running = false)
      (htable : d.timewait = s.timewait) : Progress s h d
  | record {now : UInt64} {d : Native ρ} {wait : Fin timewaitSlots} {localPort remote : UInt16}
      (htransferring : s.foreground = .transferring wait localPort remote)
      (hforeground : d.foreground = .idle) (hnext : d.nextPort = s.nextPort) (hrunning : d.running = false)
      (htable : d.timewait = Function.update s.timewait wait (completed s localPort remote now)) :
      Progress s (.finish now) d

theorem Same.refl (s : Native ρ) : Same s s := ⟨rfl, rfl, rfl, fun _ h ↦ h⟩

theorem progress_self (s : Native ρ) (h : Happening) : Progress s h s := Progress.quiet (Same.refl s) rfl

theorem progress_tcpNetArp (s : Native ρ) (f : Memory) (size : ℕ) :
    Progress s (.arp f size) (tcpNetArp netMac s f size) := by
  unfold tcpNetArp
  split
  · exact progress_self s _
  · exact Progress.quiet ⟨rfl, rfl, rfl, fun _ h ↦ h⟩ rfl

theorem awaits_alive {w : TimeWait} {packet : Packet} {now : UInt64} (h : w.awaits packet now = true) :
    now < w.expires := by
  unfold TimeWait.awaits at h
  simp only [Bool.not_eq_true', Bool.or_eq_false_iff, decide_eq_false_iff_not] at h
  exact UInt64.not_le.mp h.1.1.1

theorem progress_tcpNetInput (s : Native ρ) (frame : Memory) (size : ℕ) (packet : Packet) (now : UInt64) :
    Progress s (.frame frame size now) (tcpNetInput core s frame packet now) := by
  unfold tcpNetInput
  dsimp only
  split
  · exact progress_self s _
  split
  · rename_i i hfound
    have hawaits := List.find?_some hfound
    have halive := awaits_alive hawaits
    split
    · exact Progress.extend i halive ⟨rfl, rfl, rfl, fun _ h ↦ h⟩ rfl
    · exact progress_self s _
  split
  · exact Progress.quiet ⟨rfl, rfl, rfl, fun _ h ↦ attached_step core h (.input _ _ _)⟩ rfl
  · exact progress_self s _

theorem progress_tcpCommand (s : Native ρ) (hidle : s.foreground = .idle) (r : Command)
    (up calibrated : Bool) (now start : UInt64) :
    Progress s (.command r up calibrated now start) (tcpCommand s r up calibrated now start) := by
  unfold tcpCommand
  split
  · exact progress_self s _
  split
  · exact progress_self s _
  split
  · exact progress_self s _
  dsimp only
  split
  · exact Progress.quiet ⟨rfl, rfl, rfl, fun _ h ↦ h⟩ rfl
  rename_i hport
  split
  · exact Progress.quiet ⟨rfl, rfl, rfl, fun _ h ↦ h⟩ rfl
  rename_i wait hfound
  have hfree := List.find?_some hfound
  have hexpired := of_decide_eq_true hfree
  split
  · exact Progress.quiet ⟨rfl, rfl, rfl, fun _ h ↦ h⟩ rfl
  split
  · exact Progress.quiet ⟨rfl, rfl, rfl, fun _ h ↦ h⟩ rfl
  · exact Progress.reserve wait r.port _ hidle hexpired (UInt32.not_lt.mp hport) rfl rfl rfl rfl

theorem progress_request (s : Native ρ) (now : UInt64) (accepted : Bool) :
    Progress s (.request now accepted) (request netMac s now accepted) := by
  unfold request
  split
  · split
    · exact Progress.quiet ⟨rfl, rfl, rfl, fun _ h ↦ h⟩ rfl
    · exact progress_self s _
  · exact progress_self s _

theorem progress_resolve (s : Native ρ) (up : Bool) (test now : UInt64) (isn : UInt32)
    (emit : List Emission → Memory → ℕ → Bool) :
    Progress s (.resolve up test now isn emit) (resolve core s up test now isn emit) := by
  unfold resolve
  split
  · rename_i wait port size deadline hresolving
    split
    · exact progress_self s _
    dsimp only
    split
    · exact Progress.giveUp hresolving rfl rfl rfl rfl
    · exact Progress.open hresolving rfl rfl (attached_tcpStart core _ _ _ _ _ _ _) rfl
  · exact progress_self s _

theorem progress_cancel (s : Native ρ) : Progress s .cancel (cancel s) := by
  unfold cancel
  split
  · exact Progress.quiet ⟨rfl, rfl, rfl, fun _ _ ↦ attached_tcpAbort _ _ _⟩ rfl
  · exact progress_self s _

theorem progress_finish (s : Native ρ) (now : UInt64) : Progress s (.finish now) (finish s now) := by
  unfold finish
  split
  · rename_i wait localPort remote htransferring
    split
    · exact progress_self s _
    dsimp only
    split
    · exact Progress.record htransferring rfl rfl rfl rfl
    · exact Progress.close htransferring rfl rfl rfl rfl
  · exact progress_self s _

theorem progress_advance (s : Native ρ) (h : Happening) : Progress s h (advance core netMac s h) := by
  cases h with
  | arp frame size => exact progress_tcpNetArp netMac s frame size
  | frame frame size now =>
    unfold advance
    dsimp only
    split
    · exact progress_self s _
    · exact progress_tcpNetInput core s frame size _ now
  | poll now =>
    change Progress s (.poll now) (tcpNetPoll core s now)
    unfold tcpNetPoll
    split
    · exact Progress.quiet ⟨rfl, rfl, rfl, fun _ h ↦ attached_step core h (.tick now)⟩ rfl
    · exact progress_self s _
  | down =>
    refine Progress.quiet ⟨rfl, rfl, rfl, fun localPort h ↦ ?_⟩ rfl
    change Attached (if s.running then tcpAbort s.connection "network interface stopped"
      else s.connection) localPort
    split
    · exact attached_tcpAbort _ _ _
    · exact h
  | command r up calibrated now start =>
    unfold advance
    dsimp only
    split
    · rename_i hidle
      exact progress_tcpCommand s hidle r up calibrated now start
    · exact progress_self s _
  | request now accepted => exact progress_request netMac s now accepted
  | resolve up test now isn emit => exact progress_resolve core s up test now isn emit
  | cancel => exact progress_cancel s
  | finish now => exact progress_finish s now

end JordyOS.Transport
