import JordyOS.Net.Decode
import JordyOS.Policy.Verdict

/-!
# Received frames

`net_receive` answers echo requests in the buffer they arrive in.  The XDP program sees the frame first,
then the firewall the decoded request and the decoded reply.  The adapters for ARP and TCP, the compiled
XDP program and the address of the card are parameters.
-/

namespace JordyOS.Net

open Machine Policy Bpf

/-! ## The code -/

def netIp : UInt32 := 0xc0000202
def netMask : UInt32 := 0xffffff00

/-- `native_network`. -/
structure Network where
  echo : Bool
  received : UInt32
  invalid : UInt32
  ignored : UInt32

/-- The network and firewall state, with the frames handed to `rtl_send`, the latest one last. -/
structure Station where
  network : Network
  system : System
  sent : List (Memory × ℕ)

/-- What `net_receive` calls and does not define. -/
structure Environment where
  upstream : Upstream
  executeXdp : Maps → Memory → ℕ → BpfResult × (ℕ → UInt64)
  netMac : Memory
  tcpNetArp : Memory → ℕ → Station → Station
  tcpNetInput : Memory → Packet → Station → Station

def peerIp (ip : UInt32) : Bool :=
  ip &&& netMask == netIp &&& netMask && ip &&& 255 != 0 && ip &&& 255 != 255 && ip != netIp

/-- `memcmp` finds no difference. -/
def sameBytes (p q : Memory) (n : ℕ) : Bool := (List.range n).all fun i ↦ p i == q i

namespace Station

def receive (st : Station) : Station :=
  { st with network := { st.network with received := st.network.received + 1 } }

def reject (st : Station) : Station :=
  { st with network := { st.network with invalid := st.network.invalid + 1 } }

def ignore (st : Station) : Station :=
  { st with network := { st.network with ignored := st.network.ignored + 1 } }

end Station

/-- The reply to an ARP request for our address. -/
def arpReply (netMac frame : Memory) : Memory :=
  let reply := Memory.zero.copy 0 (frame.shift 6) 6
  let reply := netWrite16 (reply.copy 6 netMac 6) 12 0x0806
  let reply := netWrite16 (reply.copy 14 (frame.shift 14) 8) 20 2
  let reply := netWrite32 (reply.copy 22 netMac 6) 28 netIp
  reply.copy 32 (frame.shift 22) 10

/-- An ARP frame: only requests for our address are answered. -/
def arpInput (e : Environment) (st : Station) (frame : Memory) (size : ℕ) : Station :=
  let st := e.tcpNetArp frame size st
  if size < 42 ∨ netRead16 (frame.shift 14) ≠ 1 ∨ netRead16 (frame.shift 16) ≠ 0x0800 ∨
      frame 18 ≠ 6 ∨ frame 19 ≠ 4 ∨ netRead16 (frame.shift 20) ≠ 1 ∨
      !sameBytes (frame.shift 6) (frame.shift 22) 6 ∨ !peerIp (netRead32 (frame.shift 28)) ∨
      netRead32 (frame.shift 38) ≠ netIp then st.ignore
  else { st with sent := st.sent ++ [(arpReply e.netMac frame, 42)] }

/-- The body of a request, turned into the body of the reply; `none` when there is no reply. -/
def echoBody (echo : Bool) (ip : Memory) (packet : Packet) : Option Memory :=
  let body := ip.shift 20
  if packet.protocol = netIcmp ∧ body 0 = 8 ∧ body 1 = 0 then
    let ip := netWrite16 (ip.set 20 0) (20 + 2) 0
    some (netWrite16 ip (20 + 2) (netChecksum (ip.shift 20) (packet.length.toNat - 20) 0))
  else if packet.protocol = netUdp ∧ packet.destinationPort = 7777 ∧ echo then
    let ip := netWrite16 ip 20 packet.destinationPort
    let ip := netWrite16 ip (20 + 2) packet.sourcePort
    -- IPv4 UDP permits an omitted checksum.
    some (netWrite16 ip (20 + 6) 0)
  else none

/-- The header of the reply. -/
def addressReply (ip : Memory) (packet : Packet) : Memory :=
  let ip := netWrite32 ip 12 netIp
  let ip := netWrite32 ip 16 packet.source
  let ip := netWrite16 (ip.set 8 64) 10 0
  netWrite16 ip 10 (netChecksum ip 20 0)

/-- The reply is decoded again and sent when the outgoing policy allows it.  `ip` is the packet in the
frame, `frame + 14`. -/
def sendReply (e : Environment) (st : Station) (frame ip : Memory) (packet : Packet) : Station :=
  match netDecode ip packet.length.toNat with
  | none => st
  | some outgoing =>
    let (allow, system) := fwAccept e.upstream st.system outgoing 1
    let st := { st with system := system }
    if !allow then st
    else
      let frame := frame.viewed 14 ip
      let frame := frame.copy 0 (frame.shift 6) 6
      let frame := frame.copy 6 e.netMac 6
      { st with sent := st.sent ++ [(frame, 14 + packet.length.toNat)] }

/-- An IPv4 frame addressed to the card. -/
def ipInput (e : Environment) (st : Station) (frame : Memory) (size : ℕ) : Station :=
  let ip := frame.shift 14
  match netDecode ip (size - 14) with
  | none => st.reject
  | some packet =>
    if packet.destination ≠ netIp ∨ !peerIp packet.source then st.ignore
    else
      let (allow, system) := fwAccept e.upstream st.system packet 0
      let st := { st with system := system }
      if !allow then st
      else if packet.protocol = netTcp then e.tcpNetInput frame packet st
      else
        match echoBody st.network.echo ip packet with
        | none => st
        | some ip => sendReply e st frame (addressReply ip packet) packet

def netReceive (e : Environment) (st : Station) (frame : Memory) (size : ℕ) : Station :=
  let st := st.receive
  if size < 14 ∨ size > netFrameMax then st.reject
  else
    let (pass, system) := fwBpfXdp e.upstream e.executeXdp st.system frame size
    let st := { st with system := system }
    if !pass then st
    else
      let here := sameBytes frame e.netMac 6
      if (!here && !sameBytes frame (fun _ ↦ 255) 6) || frame 6 &&& 1 != 0 then st.ignore
      else
        let type := netRead16 (frame.shift 12)
        if type = 0x0806 then arpInput e st frame size
        else if type ≠ 0x0800 ∨ !here then st.ignore
        else ipInput e st frame size

/-! ## Writes into a packet -/

variable {ip : Memory} {packet : Packet}

theorem shift_netWrite16 (p : Memory) (base offset : ℕ) (n : UInt16) :
    (netWrite16 p (base + offset) n).shift base = netWrite16 (p.shift base) offset n := by
  funext i
  simp only [netWrite16, Memory.set, Memory.shift, Nat.add_assoc, Nat.add_left_cancel_iff]

/-- The second write to a field wins. -/
theorem netWrite16_netWrite16 (p : Memory) (offset : ℕ) (first second : UInt16) :
    netWrite16 (netWrite16 p offset first) offset second = netWrite16 p offset second := by
  funext i
  simp only [netWrite16, Memory.set]
  split
  · rfl
  · split <;> simp_all

theorem addressReply_of_ne (ip : Memory) (packet : Packet) {i : ℕ} (h : i < 8 ∨ i = 9 ∨ 20 ≤ i) :
    addressReply ip packet i = ip i := by
  unfold addressReply
  rw [netWrite16_of_ne _ _ (by omega), netWrite16_of_ne _ _ (by omega), Memory.set_of_ne _ _ (by omega),
    netWrite32_of_ne _ _ (by omega), netWrite32_of_ne _ _ (by omega)]

theorem addressReply_read16 (ip : Memory) (packet : Packet) {offset : ℕ}
    (h : offset ≤ 6 ∨ 20 ≤ offset) :
    netRead16 ((addressReply ip packet).shift offset) = netRead16 (ip.shift offset) :=
  netRead16_congr fun i hi ↦ addressReply_of_ne ip packet (by omega)

theorem addressReply_body (ip : Memory) (packet : Packet) :
    (addressReply ip packet).shift 20 = ip.shift 20 := by
  funext i
  exact addressReply_of_ne ip packet (by omega)

theorem addressReply_ttl (ip : Memory) (packet : Packet) : addressReply ip packet 8 = 64 := by
  unfold addressReply
  rw [netWrite16_of_ne _ _ (by omega), netWrite16_of_ne _ _ (by omega), Memory.set_self]

theorem addressReply_checksum (ip : Memory) (packet : Packet) :
    netChecksum (addressReply ip packet) 20 0 = 0 := by
  unfold addressReply
  simp only
  rw [netWrite16_netWrite16]
  exact netChecksum_stored _ (by decide) (by decide) (by decide)

theorem addressReply_addresses (ip : Memory) (packet : Packet) :
    netRead32 ((addressReply ip packet).shift 12) = netIp ∧
      netRead32 ((addressReply ip packet).shift 16) = packet.source := by
  unfold addressReply
  simp only
  constructor
  · rw [← netRead32_netWrite32 ip 12 netIp]
    refine netRead32_congr fun i hi ↦ ?_
    rw [Memory.shift_apply, Memory.shift_apply, netWrite16_of_ne _ _ (by omega),
      netWrite16_of_ne _ _ (by omega), Memory.set_of_ne _ _ (by omega), netWrite32_of_ne _ _ (by omega),
      netRead32_netWrite32]
  · rw [← netRead32_netWrite32 (netWrite32 ip 12 netIp) 16 packet.source]
    refine netRead32_congr fun i hi ↦ ?_
    rw [Memory.shift_apply, Memory.shift_apply, netWrite16_of_ne _ _ (by omega),
      netWrite16_of_ne _ _ (by omega), Memory.set_of_ne _ _ (by omega), netRead32_netWrite32]

/-! ## The body of the reply -/

/-- The body of a reply to a ping, behind the header of the request. -/
structure IcmpEcho (ip reply : Memory) (packet : Packet) : Prop where
  protocol : packet.protocol = netIcmp
  header : ∀ i < 20, reply i = ip i
  type : reply 20 = 0
  code : reply 21 = 0
  payload : ∀ i, 24 ≤ i → reply i = ip i
  checksum : 8 ≤ packet.length.toNat - 20 → packet.length.toNat ≤ 1500 →
    netChecksum (reply.shift 20) (packet.length.toNat - 20) 0 = 0

/-- The body of an echoed datagram, behind the header of the request. -/
structure UdpEcho (ip reply : Memory) (packet : Packet) : Prop where
  protocol : packet.protocol = netUdp
  header : ∀ i < 20, reply i = ip i
  source : netRead16 (reply.shift 20) = packet.destinationPort
  destination : netRead16 (reply.shift 22) = packet.sourcePort
  length : ∀ i, 24 ≤ i → i < 26 → reply i = ip i
  checksum : netRead16 (reply.shift 26) = 0
  payload : ∀ i, 28 ≤ i → reply i = ip i

theorem echoBody_cases {echo : Bool} {reply : Memory} (h : echoBody echo ip packet = some reply) :
    IcmpEcho ip reply packet ∨ UdpEcho ip reply packet := by
  unfold echoBody at h
  dsimp only at h
  split at h
  · rename_i hicmp
    rw [Option.some.injEq] at h
    subst h
    left
    obtain ⟨hprotocol, -, hcode⟩ := hicmp
    rw [netWrite16_netWrite16]
    refine ⟨hprotocol, ?_, ?_, ?_, ?_, ?_⟩
    · intro i hi
      rw [netWrite16_of_ne _ _ (by omega), Memory.set_of_ne _ _ (by omega)]
    · rw [netWrite16_of_ne _ _ (by omega), Memory.set_self]
    · rw [netWrite16_of_ne _ _ (by omega), Memory.set_of_ne _ _ (by omega)]
      exact hcode
    · intro i hi
      rw [netWrite16_of_ne _ _ (by omega), Memory.set_of_ne _ _ (by omega)]
    · intro height hle
      have hzero : (0 : UInt32).toNat = 0 := rfl
      rw [shift_netWrite16, shift_netWrite16]
      exact netChecksum_stored _ (by decide) (by omega) (by omega)
  · split at h
    · rename_i hudp
      rw [Option.some.injEq] at h
      subst h
      right
      obtain ⟨hprotocol, -, -⟩ := hudp
      refine ⟨hprotocol, ?_, ?_, ?_, ?_, ?_, ?_⟩
      · intro i hi
        rw [netWrite16_of_ne _ _ (by omega), netWrite16_of_ne _ _ (by omega),
          netWrite16_of_ne _ _ (by omega)]
      · rw [← netRead16_netWrite16 ip 20 packet.destinationPort]
        refine netRead16_congr fun i hi ↦ ?_
        rw [Memory.shift_apply, Memory.shift_apply, netWrite16_of_ne _ _ (by omega),
          netWrite16_of_ne _ _ (by omega), netRead16_netWrite16]
      · rw [← netRead16_netWrite16 (netWrite16 ip 20 packet.destinationPort) 22 packet.sourcePort]
        refine netRead16_congr fun i hi ↦ ?_
        rw [Memory.shift_apply, Memory.shift_apply, netWrite16_of_ne _ _ (by omega),
          netRead16_netWrite16]
      · intro i hlow hhigh
        rw [netWrite16_of_ne _ _ (by omega), netWrite16_of_ne _ _ (by omega),
          netWrite16_of_ne _ _ (by omega)]
      · exact netRead16_netWrite16 _ _ _
      · intro i hi
        rw [netWrite16_of_ne _ _ (by omega), netWrite16_of_ne _ _ (by omega),
          netWrite16_of_ne _ _ (by omega)]
    · cases h

/-! ## The reply is decoded -/

/-- The packet the reply carries. -/
def answer (packet : Packet) : Packet where
  source := netIp
  destination := packet.source
  sourcePort := packet.destinationPort
  destinationPort := packet.sourcePort
  length := packet.length
  protocol := packet.protocol

/-- What the decoder found in the body of a request. -/
theorem body_of_decode {available : ℕ} (h : netDecode ip available = some packet) :
    packet.length.toNat ≤ 1500 ∧ ip 9 = packet.protocol ∧
      (packet.protocol = netIcmp → 8 ≤ packet.length.toNat - 20 ∧ packet.sourcePort = 0 ∧
        packet.destinationPort = 0) ∧
      (packet.protocol = netUdp → 8 ≤ packet.length.toNat - 20 ∧
        (netRead16 (ip.shift 24)).toNat = packet.length.toNat - 20 ∧
        netRead16 (ip.shift 20) = packet.sourcePort ∧
        netRead16 (ip.shift 22) = packet.destinationPort) := by
  rw [netDecode_eq_some_iff] at h
  obtain ⟨hvalid, ports, hbody, rfl⟩ := h
  have hlength := hvalid.length_le.trans hvalid.available_le
  refine ⟨hlength, rfl, ?_, ?_⟩
  · intro hprotocol
    change ip 9 = netIcmp at hprotocol
    unfold netDecodeBody at hbody
    rw [if_pos hprotocol] at hbody
    split at hbody
    · cases hbody
    · rename_i hgood
      rw [Option.some.injEq] at hbody
      subst hbody
      rw [not_or, not_lt] at hgood
      exact ⟨hgood.1, rfl, rfl⟩
  · intro hprotocol
    change ip 9 = netUdp at hprotocol
    have hother : ¬ ip 9 = netIcmp := by
      rw [hprotocol]
      decide
    unfold netDecodeBody at hbody
    rw [if_neg hother, if_pos hprotocol] at hbody
    split at hbody
    · cases hbody
    · rename_i hgood
      rw [Option.some.injEq] at hbody
      subst hbody
      rw [not_or, not_or, not_lt, ne_eq, not_not] at hgood
      exact ⟨hgood.1, hgood.2.1, rfl, rfl⟩

/-- The rewritten request passes the decoder, with the addresses and ports swapped. -/
theorem netDecode_reply {echo : Bool} {available : ℕ} {reply : Memory}
    (h : netDecode ip available = some packet) (hecho : echoBody echo ip packet = some reply) :
    netDecode (addressReply reply packet) packet.length.toNat = some (answer packet) := by
  obtain ⟨hlength, hprotocol, hicmp, hudp⟩ := body_of_decode h
  rw [netDecode_eq_some_iff] at h ⊢
  obtain ⟨hvalid, ports, -, hpacket⟩ := h
  have hheader : ∀ i < 20, reply i = ip i := by
    rcases echoBody_cases hecho with hbody | hbody
    · exact hbody.header
    · exact hbody.header
  have hread : ∀ offset ≤ 6, netRead16 ((addressReply reply packet).shift offset) =
      netRead16 (ip.shift offset) := by
    intro offset hoffset
    rw [addressReply_read16 _ _ (Or.inl hoffset)]
    exact netRead16_congr fun i hi ↦ hheader _ (by omega)
  have hsize : netRead16 (ip.shift 2) = packet.length := by
    rw [hpacket]
    rfl
  have hvalid' : HeaderValid (addressReply reply packet) packet.length.toNat := by
    refine ⟨hlength, ?_, ?_, ?_, addressReply_checksum _ _, ?_, ?_⟩
    · rw [addressReply_of_ne _ _ (by omega), hheader 0 (by omega)]
      exact hvalid.version
    · rw [addressReply_ttl]
      decide
    · rw [hread 6 (by omega)]
      exact hvalid.whole
    · rw [hread 2 (by omega)]
      exact hvalid.twenty_le
    · rw [hread 2 (by omega), hsize]
  have hkind : addressReply reply packet 9 = packet.protocol := by
    rw [addressReply_of_ne _ _ (by omega), hheader 9 (by omega), hprotocol]
  refine ⟨hvalid', (packet.destinationPort, packet.sourcePort), ?_, ?_⟩
  · rw [hread 2 (by omega), hsize]
    unfold netDecodeBody
    simp only [hkind, addressReply_body]
    rcases echoBody_cases hecho with hbody | hbody
    · obtain ⟨height, hsource, hdestination⟩ := hicmp hbody.protocol
      rw [if_pos hbody.protocol, hsource, hdestination, if_neg]
      rw [not_or, not_lt, not_not]
      exact ⟨height, hbody.checksum height hlength⟩
    · obtain ⟨height, hlong, -, -⟩ := hudp hbody.protocol
      have hother : ¬ packet.protocol = netIcmp := by
        rw [hbody.protocol]
        decide
      have hbytes : netRead16 (reply.shift 24) = netRead16 (ip.shift 24) :=
        netRead16_congr fun i hi ↦ hbody.length _ (by omega) (by omega)
      rw [if_neg hother, if_pos hbody.protocol, if_neg]
      · rw [Memory.shift_shift, hbody.source, hbody.destination]
      · rw [Memory.shift_shift, Memory.shift_shift, hbytes, hbody.checksum]
        simp only [not_or, not_lt, ne_eq, hlong, not_true_eq_false, false_and, not_false_eq_true, and_true]
        exact height
  · obtain ⟨hsource, hdestination⟩ := addressReply_addresses reply packet
    unfold packetOf answer
    rw [hsource, hdestination, hread 2 (by omega), hsize, hkind]

/-! ## Replies -/

/-- The XDP program passed the frame, the incoming policy the request and the outgoing policy the
reply. -/
structure Authorised (e : Environment) (st : Station) (frame : Memory) (size : ℕ) (packet : Packet) :
    Prop where
  request : netDecode (frame.shift 14) (size - 14) = some packet
  xdp : (fwBpfXdp e.upstream e.executeXdp st.system frame size).1 = true
  incoming : (fwAccept e.upstream (fwBpfXdp e.upstream e.executeXdp st.system frame size).2
    packet 0).1 = true
  outgoing : (fwAccept e.upstream (fwAccept e.upstream
    (fwBpfXdp e.upstream e.executeXdp st.system frame size).2 packet 0).2 (answer packet) 1).1 = true

/-- The reply goes back to the requester and differs from the request in nothing but the fields that
have to change. -/
structure WellFormed (e : Environment) (frame : Memory) (packet : Packet) (reply : Memory × ℕ) :
    Prop where
  size_eq : reply.2 = 14 + packet.length.toNat
  destination : ∀ i < 6, reply.1 i = frame (6 + i)
  unicast : reply.1 0 &&& 1 = 0
  source : ∀ i < 6, reply.1 (6 + i) = e.netMac i
  type : netRead16 (reply.1.shift 12) = 0x0800
  decoded : netDecode (reply.1.shift 14) packet.length.toNat = some (answer packet)
  ttl : reply.1 22 = 64
  header : ∀ i, 14 ≤ i → i < 22 ∨ i = 23 → reply.1 i = frame i
  icmp : packet.protocol = netIcmp → reply.1 34 = 0 ∧ reply.1 35 = 0 ∧
    ∀ i, 38 ≤ i → reply.1 i = frame i
  udp : packet.protocol = netUdp →
    netRead16 (reply.1.shift 34) = netRead16 (frame.shift 36) ∧
      netRead16 (reply.1.shift 36) = netRead16 (frame.shift 34) ∧
      netRead16 (reply.1.shift 40) = 0 ∧
      ∀ i, i = 38 ∨ i = 39 ∨ 42 ≤ i → reply.1 i = frame i

/-- The frame around a reply. -/
def replyFrame (netMac frame ip : Memory) : Memory :=
  ((frame.viewed 14 ip).copy 0 ((frame.viewed 14 ip).shift 6) 6).copy 6 netMac 6

theorem replyFrame_ip (netMac frame ip : Memory) : (replyFrame netMac frame ip).shift 14 = ip := by
  funext i
  have hview := congrFun (Memory.shift_viewed frame ip 14) i
  rw [Memory.shift_apply] at hview ⊢
  unfold replyFrame
  rw [Memory.copy_above _ _ (by omega), Memory.copy_above _ _ (by omega), hview]

theorem replyFrame_addresses (netMac frame ip : Memory) {i : ℕ} (hi : i < 6) :
    replyFrame netMac frame ip i = frame (6 + i) ∧ replyFrame netMac frame ip (6 + i) = netMac i := by
  unfold replyFrame
  constructor
  · have hcopy : (frame.viewed 14 ip).copy 0 ((frame.viewed 14 ip).shift 6) 6 (0 + i) =
        (frame.viewed 14 ip).shift 6 i := Memory.copy_inside _ _ hi
    rw [Nat.zero_add] at hcopy
    rw [Memory.copy_below _ _ (by omega), hcopy, Memory.shift_apply, Memory.viewed_below _ _ (by omega)]
  · exact Memory.copy_inside _ _ hi

theorem replyFrame_type (netMac frame ip : Memory) :
    netRead16 ((replyFrame netMac frame ip).shift 12) = netRead16 (frame.shift 12) := by
  refine netRead16_congr fun i hi ↦ ?_
  unfold replyFrame
  rw [Memory.shift_apply, Memory.shift_apply, Memory.copy_above _ _ (by omega),
    Memory.copy_above _ _ (by omega), Memory.viewed_below _ _ (by omega)]

theorem wellFormed_reply {e : Environment} {echo : Bool} {frame reply : Memory} {size : ℕ}
    (hunicast : frame 6 &&& 1 = 0) (htype : netRead16 (frame.shift 12) = 0x0800)
    (h : netDecode (frame.shift 14) (size - 14) = some packet)
    (hecho : echoBody echo (frame.shift 14) packet = some reply) :
    WellFormed e frame packet
      (replyFrame e.netMac frame (addressReply reply packet), 14 + packet.length.toNat) := by
  have hip := replyFrame_ip e.netMac frame (addressReply reply packet)
  have hbyte : ∀ i, replyFrame e.netMac frame (addressReply reply packet) (14 + i) =
      addressReply reply packet i := fun i ↦ congrFun hip i
  have hsame : ∀ i, i < 8 ∨ i = 9 ∨ 20 ≤ i → reply i = frame (14 + i) →
      replyFrame e.netMac frame (addressReply reply packet) (14 + i) = frame (14 + i) := by
    intro i hi hreply
    rw [hbyte, addressReply_of_ne _ _ hi, hreply]
  have hheader : ∀ i < 20, reply i = frame (14 + i) := by
    rcases echoBody_cases hecho with hbody | hbody
    · exact hbody.header
    · exact hbody.header
  have hbody16 : ∀ offset, netRead16 ((replyFrame e.netMac frame
      (addressReply reply packet)).shift (14 + (20 + offset))) = netRead16 (reply.shift (20 + offset)) := by
    intro offset
    rw [← Memory.shift_shift, hip]
    exact addressReply_read16 _ _ (by omega)
  obtain ⟨-, -, -, hudp⟩ := body_of_decode h
  refine
    { size_eq := rfl
      destination := fun i hi ↦ (replyFrame_addresses _ _ _ hi).1
      unicast := ?_
      source := fun i hi ↦ (replyFrame_addresses _ _ _ hi).2
      type := (replyFrame_type _ _ _).trans htype
      decoded := ?_
      ttl := (hbyte 8).trans (addressReply_ttl _ _)
      header := ?_
      icmp := fun hicmp ↦ ?_
      udp := fun hprotocol ↦ ?_ }
  · change replyFrame e.netMac frame (addressReply reply packet) 0 &&& 1 = 0
    rw [(replyFrame_addresses e.netMac frame (addressReply reply packet) (by decide : 0 < 6)).1]
    exact hunicast
  · rw [hip]
    exact netDecode_reply h hecho
  · intro i hlow hhigh
    obtain ⟨j, rfl⟩ := Nat.exists_eq_add_of_le hlow
    exact hsame j (by omega) (hheader j (by omega))
  · rcases echoBody_cases hecho with hbody | hbody
    · refine ⟨?_, ?_, ?_⟩
      · exact (hbyte 20).trans ((addressReply_of_ne _ _ (by omega)).trans hbody.type)
      · exact (hbyte 21).trans ((addressReply_of_ne _ _ (by omega)).trans hbody.code)
      · intro i hi
        obtain ⟨j, rfl⟩ := Nat.exists_eq_add_of_le (show 14 ≤ i by omega)
        exact hsame j (by omega) (hbody.payload j (by omega))
    · rw [hbody.protocol] at hicmp
      exact absurd hicmp (by decide)
  · rcases echoBody_cases hecho with hbody | hbody
    · rw [hbody.protocol] at hprotocol
      exact absurd hprotocol (by decide)
    · obtain ⟨-, -, hsource, hdestination⟩ := hudp hprotocol
      rw [Memory.shift_shift] at hsource hdestination
      refine ⟨?_, ?_, ?_, ?_⟩
      · exact (hbody16 0).trans (hbody.source.trans hdestination.symm)
      · exact (hbody16 2).trans (hbody.destination.trans hsource.symm)
      · exact (hbody16 6).trans hbody.checksum
      · intro i hi
        obtain ⟨j, rfl⟩ := Nat.exists_eq_add_of_le (show 14 ≤ i by omega)
        refine hsame j (by omega) ?_
        rcases hi with hi | hi | hi
        · exact hbody.length j (by omega) (by omega)
        · exact hbody.length j (by omega) (by omega)
        · exact hbody.payload j (by omega)

/-- A station that has handed over nothing, or one authorised and well-formed reply, since `st`. -/
def Answered (e : Environment) (st : Station) (frame : Memory) (size : ℕ) (next : Station) : Prop :=
  next.sent = st.sent ∨
    ∃ packet reply, next.sent = st.sent ++ [reply] ∧ Authorised e st frame size packet ∧
      WellFormed e frame packet reply

theorem sendReply_sent (e : Environment) (st : Station) (frame ip : Memory) (packet : Packet) :
    (sendReply e st frame ip packet).sent = st.sent ∨
      (∃ outgoing, netDecode ip packet.length.toNat = some outgoing ∧
        (fwAccept e.upstream st.system outgoing 1).1 = true) ∧
      (sendReply e st frame ip packet).sent =
        st.sent ++ [(replyFrame e.netMac frame ip, 14 + packet.length.toNat)] := by
  unfold sendReply
  cases hdecode : netDecode ip packet.length.toNat with
  | none => exact Or.inl rfl
  | some outgoing =>
    dsimp only
    cases hallow : (fwAccept e.upstream st.system outgoing 1).1 with
    | false => exact Or.inl rfl
    | true => exact Or.inr ⟨⟨outgoing, rfl, hallow⟩, rfl⟩

/-- An IPv4 frame behind the XDP program. -/
theorem ipInput_answered {e : Environment} {st : Station} {frame : Memory} {size : ℕ}
    (hxdp : (fwBpfXdp e.upstream e.executeXdp st.system frame size).1 = true)
    (hunicast : frame 6 &&& 1 = 0) (htype : netRead16 (frame.shift 12) = 0x0800)
    (htcp : ∀ p, netDecode (frame.shift 14) (size - 14) = some p → p.protocol ≠ netTcp) :
    Answered e st frame size (ipInput e
      { st.receive with system := (fwBpfXdp e.upstream e.executeXdp st.system frame size).2 }
      frame size) := by
  unfold ipInput
  dsimp only
  cases hdecode : netDecode (frame.shift 14) (size - 14) with
  | none => exact Or.inl rfl
  | some packet =>
    dsimp only
    split
    · exact Or.inl rfl
    · cases hallow : (fwAccept e.upstream (fwBpfXdp e.upstream e.executeXdp st.system frame size).2
          packet 0).1 with
      | false => exact Or.inl rfl
      | true =>
        rw [if_neg (by decide), if_neg (htcp packet hdecode)]
        cases hecho : echoBody st.receive.network.echo (frame.shift 14) packet with
        | none => exact Or.inl rfl
        | some reply =>
          dsimp only
          rcases sendReply_sent e _ frame (addressReply reply packet) packet with
            hnone | ⟨⟨outgoing, hagain, hout⟩, hone⟩
          · exact Or.inl hnone
          · rw [netDecode_reply hdecode hecho, Option.some.injEq] at hagain
            subst hagain
            exact Or.inr ⟨packet, _, hone, ⟨hdecode, hxdp, hallow, hout⟩,
              wellFormed_reply hunicast htype hdecode hecho⟩

/-- A frame that is neither ARP nor TCP is answered once at most, by an authorised and well-formed
reply, and no request that passes its checks is rewritten into a packet that the decoder rejects. -/
theorem netReceive_answered (e : Environment) (st : Station) (frame : Memory) (size : ℕ)
    (harp : netRead16 (frame.shift 12) ≠ 0x0806)
    (htcp : ∀ p, netDecode (frame.shift 14) (size - 14) = some p → p.protocol ≠ netTcp) :
    Answered e st frame size (netReceive e st frame size) ∧
      ∀ packet reply, netDecode (frame.shift 14) (size - 14) = some packet →
        echoBody st.network.echo (frame.shift 14) packet = some reply →
        netDecode (addressReply reply packet) packet.length.toNat = some (answer packet) := by
  refine ⟨?_, fun packet reply hdecode hecho ↦ netDecode_reply hdecode hecho⟩
  unfold netReceive
  dsimp only
  split
  · exact Or.inl rfl
  · cases hxdp : (fwBpfXdp e.upstream e.executeXdp st.receive.system frame size).1 with
    | false => exact Or.inl rfl
    | true =>
      rw [if_neg (by decide)]
      split
      · exact Or.inl rfl
      · rename_i hfilter
        split
        · exact Or.inl rfl
        · rename_i htype
          have hunicast : frame 6 &&& 1 = 0 := by
            simp only [Bool.or_eq_true, bne_iff_ne, ne_eq, not_or, not_not] at hfilter
            exact hfilter.2
          rw [not_or, not_not] at htype
          exact ipInput_answered hxdp hunicast htype.1 htcp

/-! ### An echoed datagram -/

/-- An XDP program that passes everything, and no TCP behind the network. -/
def echoEnvironment : Environment where
  upstream := reference
  executeXdp m _ _ := (⟨true, 2, 0⟩, m.counters)
  netMac := Memory.ofList [82, 84, 0, 18, 52, 86]
  tcpNetArp _ _ st := st
  tcpNetInput _ _ st := st

def echoStation : Station := ⟨⟨true, 0, 0, 0⟩, ⟨fwReset, Maps.zero, {}⟩, []⟩

/-- A datagram from 192.0.2.1:4660 to port 7777, with the payload `jord` and two bytes of padding. -/
def echoFrame : Memory := Memory.ofList
  [82, 84, 0, 18, 52, 86, 2, 0, 0, 0, 0, 1, 8, 0,
    0x45, 0, 0, 32, 0, 1, 0, 0, 64, 17, 246, 200, 192, 0, 2, 1, 192, 0, 2, 2,
    0x12, 0x34, 0x1e, 0x61, 0, 12, 0, 0, 106, 111, 114, 100, 0, 0]

theorem netReceive_answered_echoFrame :
    ∃ packet reply, (netReceive echoEnvironment echoStation echoFrame 48).sent = [reply] ∧
      Authorised echoEnvironment echoStation echoFrame 48 packet ∧
      WellFormed echoEnvironment echoFrame packet reply := by
  have hdecode : netDecode (echoFrame.shift 14) (48 - 14) =
      some ⟨0xc0000201, 0xc0000202, 0x1234, 7777, 32, netUdp⟩ := by decide +kernel
  have hsent : (netReceive echoEnvironment echoStation echoFrame 48).sent.length = 1 := by
    decide +kernel
  have htcp : ∀ p, netDecode (echoFrame.shift 14) (48 - 14) = some p → p.protocol ≠ netTcp := by
    intro p hp
    rw [hdecode, Option.some.injEq] at hp
    subst hp
    decide
  rcases (netReceive_answered echoEnvironment echoStation echoFrame 48 (by decide) htcp).1 with
    hnone | ⟨packet, reply, hone, hallowed, hformed⟩
  · rw [hnone] at hsent
    exact absurd hsent (by decide)
  · exact ⟨packet, reply, hone, hallowed, hformed⟩

end JordyOS.Net
