import JordyOS.Net.Receive
import JordyOS.Transport.Segment

/-!
# Frames around segments

`send_to` of `tcp_native.c` puts a segment into an IPv4 packet and an Ethernet frame.  The packet passes
`net_decode`, and a receiver that reads the frame with the offsets of `tcp_input` finds the segment.
-/

namespace JordyOS.Transport

open Machine Net Policy

/-! ## The code -/

/-- The header of the packet, before its checksum: the frame is cleared at first. -/
def packetHeader (ip : UInt32) (size : ℕ) : Memory :=
  let h := ((Memory.zero.set 0 0x45).set 8 64).set 9 netTcp
  let h := netWrite16 h 2 (UInt16.ofNat (20 + size))
  netWrite32 (netWrite32 h 12 netIp) 16 ip

/-- The sum of the pseudo header that `send_to` starts the checksum of the segment with. -/
def pseudoSum (h : Memory) (size : ℕ) : UInt32 :=
  (netRead16 (h.shift 12)).toUInt32 + (netRead16 (h.shift 14)).toUInt32 +
    (netRead16 (h.shift 16)).toUInt32 + (netRead16 (h.shift 18)).toUInt32 + netTcp.toUInt32 +
    UInt32.ofNat size

/-- The packet with both checksums. -/
def tcpPacket (ip : UInt32) (body : Memory) (size : ℕ) : Memory :=
  let h := packetHeader ip size
  let h := (netWrite16 h 10 (netChecksum h 20 0)).copy 20 body size
  netWrite16 h (20 + 16) (netChecksum (h.shift 20) size (pseudoSum h size))

def tcpFrame (netMac : Memory) (ip : UInt32) (mac body : Memory) (size : ℕ) : Memory :=
  let frame := netWrite16 ((Memory.zero.copy 0 mac 6).copy 6 netMac 6) 12 0x0800
  frame.viewed 14 (tcpPacket ip body size)

/-- The result of `rtl_send` is up to the card. -/
def sendTo (e : Environment) (rtlSend : Memory → ℕ → Bool) (st : Station) (ip : UInt32)
    (mac body : Memory) (size : ℕ) : Bool × Station :=
  let frame := tcpFrame e.netMac ip mac body size
  match netDecode (frame.shift 14) (20 + size) with
  | none => (false, st)
  | some outgoing =>
    let (allow, system) := fwAccept e.upstream st.system outgoing 1
    let st := { st with system := system }
    if !allow then (false, st)
    else (rtlSend frame (14 + 20 + size), { st with sent := st.sent ++ [(frame, 14 + 20 + size)] })

/-! ## The packet -/

variable {ip : UInt32} {body : Memory} {size : ℕ}

theorem netWrite16_eq_self {p : Memory} {offset : ℕ} (hhigh : p offset = 0) (hlow : p (offset + 1) = 0) :
    netWrite16 p offset 0 = p := by
  funext i
  unfold netWrite16 Memory.set
  split
  · rename_i h
    rw [h, hlow]
    rfl
  · split
    · rename_i h
      rw [h, hhigh]
      rfl
    · rfl

theorem packetHeader_zero (ip : UInt32) (size : ℕ) {i : ℕ}
    (h : i = 1 ∨ (4 ≤ i ∧ i < 8) ∨ i = 10 ∨ i = 11 ∨ 20 ≤ i) : packetHeader ip size i = 0 := by
  unfold packetHeader
  rw [netWrite32_of_ne _ _ (by omega), netWrite32_of_ne _ _ (by omega), netWrite16_of_ne _ _ (by omega),
    Memory.set_of_ne _ _ (by omega), Memory.set_of_ne _ _ (by omega), Memory.set_of_ne _ _ (by omega)]
  rfl

theorem packetHeader_fixed (ip : UInt32) (size : ℕ) : packetHeader ip size 0 = 0x45 ∧
    packetHeader ip size 8 = 64 ∧ packetHeader ip size 9 = netTcp := by
  refine ⟨?_, ?_, ?_⟩
  all_goals
    unfold packetHeader
    rw [netWrite32_of_ne _ _ (by omega), netWrite32_of_ne _ _ (by omega),
      netWrite16_of_ne _ _ (by omega)]
    rfl

theorem packetHeader_length (ip : UInt32) (size : ℕ) :
    netRead16 ((packetHeader ip size).shift 2) = UInt16.ofNat (20 + size) := by
  refine Eq.trans (netRead16_congr fun i hi ↦ ?_) (netRead16_netWrite16 ?_ 2 (UInt16.ofNat (20 + size)))
  rw [Memory.shift_apply, packetHeader, netWrite32_of_ne _ _ (by omega), netWrite32_of_ne _ _ (by omega)]
  rfl

theorem packetHeader_addresses (ip : UInt32) (size : ℕ) :
    netRead32 ((packetHeader ip size).shift 12) = netIp ∧
      netRead32 ((packetHeader ip size).shift 16) = ip := by
  unfold packetHeader
  dsimp only
  refine ⟨?_, netRead32_netWrite32 _ 16 ip⟩
  refine Eq.trans (netRead32_congr fun i hi ↦ ?_) (netRead32_netWrite32 ?_ 12 netIp)
  rw [Memory.shift_apply, netWrite32_of_ne _ _ (by omega)]
  rfl

/-- The first twenty bytes of the packet. -/
theorem tcpPacket_header (ip : UInt32) (body : Memory) (size : ℕ) {i : ℕ} (hi : i < 20) :
    tcpPacket ip body size i =
      netWrite16 (packetHeader ip size) 10 (netChecksum (packetHeader ip size) 20 0) i := by
  unfold tcpPacket
  rw [netWrite16_of_ne _ _ (by omega), Memory.copy_below _ _ hi]

theorem tcpPacket_header_of_ne (ip : UInt32) (body : Memory) (size : ℕ) {i : ℕ} (hi : i < 10 ∨ 12 ≤ i)
    (htwenty : i < 20) : tcpPacket ip body size i = packetHeader ip size i := by
  rw [tcpPacket_header ip body size htwenty, netWrite16_of_ne _ _ (by omega)]

theorem tcpPacket_checksum (ip : UInt32) (body : Memory) (size : ℕ) :
    netChecksum (tcpPacket ip body size) 20 0 = 0 := by
  have hzero : netWrite16 (packetHeader ip size) 10 0 = packetHeader ip size :=
    netWrite16_eq_self (packetHeader_zero ip size (by omega)) (packetHeader_zero ip size (by omega))
  have hstored : netChecksum (netWrite16 (packetHeader ip size) 10
      (netChecksum (netWrite16 (packetHeader ip size) 10 0) 20 0)) 20 0 = 0 :=
    netChecksum_stored _ (by decide) (by decide) (by decide)
  rw [hzero] at hstored
  rw [← hstored]
  exact netChecksum_congr (fun i hi ↦ tcpPacket_header ip body size hi) 0

/-- The segment in the packet, before its checksum. -/
def clearedBody (body : Memory) (size : ℕ) : Memory := fun i ↦ if i < size then body i else 0

theorem tcpPacket_body (ip : UInt32) (body : Memory) (size : ℕ) :
    (tcpPacket ip body size).shift 20 = netWrite16 (clearedBody body size) 16
      (netChecksum (clearedBody body size) size (pseudoSum (tcpPacket ip body size) size)) := by
  have hcleared : ((netWrite16 (packetHeader ip size) 10 (netChecksum (packetHeader ip size) 20 0)).copy 20
      body size).shift 20 = clearedBody body size := by
    funext i
    unfold clearedBody
    rw [Memory.shift_apply]
    by_cases hi : i < size
    · rw [Memory.copy_inside _ _ hi, if_pos hi]
    · rw [Memory.copy_above _ _ (by omega), if_neg hi, netWrite16_of_ne _ _ (by omega),
        packetHeader_zero ip size (by omega)]
  have hpseudo : pseudoSum ((netWrite16 (packetHeader ip size) 10
      (netChecksum (packetHeader ip size) 20 0)).copy 20 body size) size =
      pseudoSum (tcpPacket ip body size) size := by
    have hread : ∀ offset, offset + 2 ≤ 20 → netRead16 (((netWrite16 (packetHeader ip size) 10
        (netChecksum (packetHeader ip size) 20 0)).copy 20 body size).shift offset) =
        netRead16 ((tcpPacket ip body size).shift offset) := fun offset hoffset ↦
      netRead16_congr fun i hi ↦ by
        rw [Memory.shift_apply, Memory.shift_apply, Memory.copy_below _ _ (by omega),
          tcpPacket_header ip body size (by omega)]
    unfold pseudoSum
    rw [hread 12 (by decide), hread 14 (by decide), hread 16 (by decide), hread 18 (by decide)]
  rw [← hpseudo]
  unfold tcpPacket
  dsimp only
  rw [shift_netWrite16, hcleared]

/-- Behind the checksum field nothing is changed. -/
theorem tcpPacket_body_of_ne (ip : UInt32) (body : Memory) {size i : ℕ} (hi : i < size)
    (hne : i < 16 ∨ 18 ≤ i) : (tcpPacket ip body size).shift 20 i = body i := by
  rw [tcpPacket_body, netWrite16_of_ne _ _ (by omega), clearedBody, if_pos hi]

theorem pseudoSum_lt (h : Memory) {size : ℕ} (hsize : size ≤ 1480) :
    (pseudoSum h size).toNat < 2 ^ 19 := by
  have hprotocol : netTcp.toUInt32.toNat = 6 := rfl
  have h12 := (netRead16 (h.shift 12)).toNat_lt
  have h14 := (netRead16 (h.shift 14)).toNat_lt
  have h16 := (netRead16 (h.shift 16)).toNat_lt
  have h18 := (netRead16 (h.shift 18)).toNat_lt
  have hcount : (UInt32.ofNat size).toNat = size := UInt32.toNat_ofNat_of_lt' (hsize.trans_lt (by decide))
  unfold pseudoSum
  simp only [UInt32.toNat_add, UInt16.toNat_toUInt32, hprotocol, hcount]
  omega

theorem tcpPacket_bodyChecksum (ip : UInt32) {body : Memory} {size : ℕ} (hlow : 18 ≤ size)
    (hsize : size ≤ 1480) (hhigh : body 16 = 0) (hzero : body 17 = 0) :
    netChecksum ((tcpPacket ip body size).shift 20) size (pseudoSum (tcpPacket ip body size) size) =
      0 := by
  have hcleared : netWrite16 (clearedBody body size) 16 0 = clearedBody body size := by
    refine netWrite16_eq_self ?_ ?_
    · rw [clearedBody, if_pos (by omega), hhigh]
    · rw [clearedBody, if_pos (by omega), hzero]
  have hsum := pseudoSum_lt (tcpPacket ip body size) hsize
  rw [tcpPacket_body]
  generalize pseudoSum (tcpPacket ip body size) size = sum at hsum ⊢
  have hstored : netChecksum (netWrite16 (clearedBody body size) 16
      (netChecksum (netWrite16 (clearedBody body size) 16 0) size sum)) size sum = 0 :=
    netChecksum_stored (clearedBody body size) (by decide) (by omega) (by omega)
  rwa [hcleared] at hstored

theorem tcpPacket_length (ip : UInt32) (body : Memory) (size : ℕ) :
    netRead16 ((tcpPacket ip body size).shift 2) = UInt16.ofNat (20 + size) := by
  rw [← packetHeader_length ip size]
  exact netRead16_congr fun i hi ↦ tcpPacket_header_of_ne ip body size (by omega) (by omega)

theorem tcpPacket_addresses (ip : UInt32) (body : Memory) (size : ℕ) :
    netRead32 ((tcpPacket ip body size).shift 12) = netIp ∧
      netRead32 ((tcpPacket ip body size).shift 16) = ip := by
  have hread : ∀ offset, 12 ≤ offset → offset + 4 ≤ 20 →
      netRead32 ((tcpPacket ip body size).shift offset) =
        netRead32 ((packetHeader ip size).shift offset) := fun offset hlow hhigh ↦
    netRead32_congr fun i hi ↦ tcpPacket_header_of_ne ip body size (by omega) (by omega)
  rw [hread 12 le_rfl (by decide), hread 16 (by decide) le_rfl]
  exact packetHeader_addresses ip size

theorem tcpPacket_headerValid (ip : UInt32) (body : Memory) {size available : ℕ}
    (havailable : 20 + size ≤ available) (hle : available ≤ 1500) :
    HeaderValid (tcpPacket ip body size) available := by
  obtain ⟨hversion, halive, -⟩ := packetHeader_fixed ip size
  have hlength : (UInt16.ofNat (20 + size)).toNat = 20 + size :=
    UInt16.toNat_ofNat_of_lt' (show 20 + size < 2 ^ 16 by omega)
  have hwhole : netRead16 ((tcpPacket ip body size).shift 6) = netRead16 (Memory.zero.shift 6) :=
    netRead16_congr fun i hi ↦ by
      rw [Memory.shift_apply, tcpPacket_header_of_ne ip body size (by omega) (by omega),
        packetHeader_zero ip size (by omega)]
      rfl
  refine ⟨hle, ?_, ?_, ?_, tcpPacket_checksum ip body size, ?_, ?_⟩
  · rw [tcpPacket_header_of_ne ip body size (by decide) (by decide), hversion]
  · rw [tcpPacket_header_of_ne ip body size (by decide) (by decide), halive]
    decide
  · rw [hwhole]
    rfl
  · rw [tcpPacket_length, hlength]
    omega
  · rw [tcpPacket_length, hlength]
    exact havailable

theorem netDecodeBody_tcp {h : Memory} {size : ℕ} (hprotocol : h 9 = netTcp) (hlow : 20 ≤ size)
    (hoffset : ¬ h.shift 20 12 >>> 4 < 5) (hheader : (h.shift 20 12 >>> 4).toNat * 4 ≤ size)
    (hchecksum : netChecksum (h.shift 20) size (pseudoSum h size) = 0) :
    netDecodeBody h size = some (netRead16 (h.shift 20), netRead16 ((h.shift 20).shift 2)) := by
  unfold pseudoSum at hchecksum
  unfold netDecodeBody
  dsimp only
  rw [hprotocol, if_neg (by decide), if_neg (by decide), if_pos rfl, if_neg]
  rintro (hbad | hbad | hbad | hbad)
  · omega
  · exact hoffset hbad
  · omega
  · exact hbad hchecksum

/-- `net_decode` accepts the packet around a segment whose header fits and whose checksum field is
cleared. -/
theorem netDecode_tcpPacket (ip : UInt32) {body : Memory} {size available : ℕ} (hlow : 20 ≤ size)
    (havailable : 20 + size ≤ available) (hle : available ≤ 1500) (hhigh : body 16 = 0)
    (hzero : body 17 = 0) (hoffset : ¬ body 12 >>> 4 < 5) (hheader : (body 12 >>> 4).toNat * 4 ≤ size) :
    netDecode (tcpPacket ip body size) available =
      some ⟨netIp, ip, netRead16 body, netRead16 (body.shift 2), UInt16.ofNat (20 + size), netTcp⟩ := by
  have hprotocol : tcpPacket ip body size 9 = netTcp := by
    rw [tcpPacket_header_of_ne ip body size (by decide) (by decide)]
    exact (packetHeader_fixed ip size).2.2
  have hlength : (netRead16 ((tcpPacket ip body size).shift 2)).toNat - 20 = size := by
    rw [tcpPacket_length, UInt16.toNat_ofNat_of_lt' (show 20 + size < 2 ^ 16 by omega)]
    omega
  have hdataOffset : (tcpPacket ip body size).shift 20 12 = body 12 :=
    tcpPacket_body_of_ne ip body (by omega) (by decide)
  have hports : ∀ offset, offset + 2 ≤ 4 →
      netRead16 (((tcpPacket ip body size).shift 20).shift offset) = netRead16 (body.shift offset) := by
    intro offset hoffset
    refine netRead16_congr fun i hi ↦ ?_
    have hplace : offset + i < size := by omega
    exact tcpPacket_body_of_ne ip body hplace (Or.inl (by omega))
  have hsource := hports 0 (by decide)
  rw [Memory.shift_zero, Memory.shift_zero] at hsource
  have hchecksum : netChecksum ((tcpPacket ip body size).shift 20) size
      (pseudoSum (tcpPacket ip body size) size) = 0 :=
    tcpPacket_bodyChecksum ip (by omega) (by omega) hhigh hzero
  obtain ⟨haddress, haddress'⟩ := tcpPacket_addresses ip body size
  have hbody := netDecodeBody_tcp hprotocol hlow (by rwa [hdataOffset]) (by rwa [hdataOffset]) hchecksum
  rw [hsource, hports 2 (by decide)] at hbody
  refine netDecode_eq_some_iff.mpr ⟨tcpPacket_headerValid ip body havailable hle,
    (netRead16 body, netRead16 (body.shift 2)), ?_, ?_⟩
  · rw [hlength]
    exact hbody
  · rw [packetOf, haddress, haddress', tcpPacket_length, hprotocol]

/-! ## Segments of a connection -/

theorem tcpFrame_packet (netMac : Memory) (ip : UInt32) (mac body : Memory) (size : ℕ) :
    (tcpFrame netMac ip mac body size).shift 14 = tcpPacket ip body size :=
  Memory.shift_viewed _ _ 14

theorem tcpFrame_ethernet (netMac : Memory) (ip : UInt32) (mac body : Memory) (size : ℕ) :
    (∀ i < 6, tcpFrame netMac ip mac body size i = mac i) ∧
      (∀ i < 6, tcpFrame netMac ip mac body size (6 + i) = netMac i) ∧
      netRead16 ((tcpFrame netMac ip mac body size).shift 12) = 0x0800 := by
  unfold tcpFrame
  dsimp only
  refine ⟨fun i hi ↦ ?_, fun i hi ↦ ?_, ?_⟩
  · have hcopied : Memory.zero.copy 0 mac 6 (0 + i) = mac i := Memory.copy_inside Memory.zero mac hi
    rw [Nat.zero_add] at hcopied
    rw [Memory.viewed_below _ _ (by omega), netWrite16_of_ne _ _ (by omega),
      Memory.copy_below _ _ (by omega), hcopied]
  · rw [Memory.viewed_below _ _ (by omega), netWrite16_of_ne _ _ (by omega), Memory.copy_inside _ _ hi]
  · refine Eq.trans (netRead16_congr fun i hi ↦ ?_)
      (netRead16_netWrite16 ((Memory.zero.copy 0 mac 6).copy 6 netMac 6) 12 0x0800)
    exact Memory.viewed_below _ _ (by omega)

/-- `send_to` consults the policy about every segment it can decode. -/
theorem sendTo_eq (e : Environment) (rtlSend : Memory → ℕ → Bool) (st : Station) (ip : UInt32)
    (mac : Memory) {body : Memory} {size : ℕ} {packet : Packet}
    (h : netDecode (tcpPacket ip body size) (20 + size) = some packet) :
    sendTo e rtlSend st ip mac body size =
      let (allow, system) := fwAccept e.upstream st.system packet 1
      let st := { st with system := system }
      if !allow then (false, st)
      else (rtlSend (tcpFrame e.netMac ip mac body size) (14 + 20 + size),
        { st with sent := st.sent ++ [(tcpFrame e.netMac ip mac body size, 14 + 20 + size)] }) := by
  unfold sendTo
  dsimp only
  rw [tcpFrame_packet, h]

/-- An option list that is one maximum segment size. -/
theorem synOptions_mss {b : Memory} (hkind : b 20 = 2) (hlength : b 21 = 4)
    (hmss : netRead16 (b.shift 22) = tcpMss.toUInt16) (mss : UInt32) :
    synOptions b 24 24 20 mss = some (min32 mss tcpMss) := by
  have htwo : ¬ (20 + 1 ≥ 24 ∨ b (20 + 1) < 2 ∨ 20 + (b (20 + 1)).toNat > 24) := by
    rw [hlength]
    decide
  have hfour : ¬ (b (20 + 1) ≠ 4 ∨ netRead16 (b.shift (20 + 2)) = 0) := by
    rw [hlength, hmss]
    decide
  rw [synOptions, if_neg (by decide), hkind, if_neg (by decide), if_neg (by decide), if_neg htwo,
    if_pos rfl, if_neg hfour, hlength, hmss]
  rfl

/-- The segment found in the frame, read with the offsets of `tcp_input`. -/
structure ReadBack (b : Memory) (n : ℕ) (c : Tcp ρ) (seq : UInt32) (flags : UInt8) (data : Memory)
    (size : UInt32) : Prop where
  ports : netRead16 b = c.localPort ∧ netRead16 (b.shift 2) = c.peerPort
  header : headerLength b = if has flags tcpSyn then 24 else 20
  options : has flags tcpSyn = true → ∀ mss, synOptions b 24 24 20 mss = some (min32 mss tcpMss)
  whole : n = headerLength b + size.toNat
  sequence : (readSegment b n).sequence = seq
  acknowledgement : (readSegment b n).acknowledgement = c.receiveNext
  flags : (readSegment b n).flags = flags
  window : (readSegment b n).window.toUInt32 = receiveWindow c.rxSize
  length : (readSegment b n).length = size
  payload : ∀ j < size.toNat, (readSegment b n).payload j = data j

variable {ρ : Type}

theorem readBack_segmentBytes (c : Tcp ρ) (seq : UInt32) (flags : UInt8) (data : Memory) (size : UInt32)
    {b : Memory} (hsize : size.toNat ≤ 536)
    (hb : ∀ i < (segmentBytes c.localPort c.peerPort c.receiveNext c.rxSize seq flags data size).2,
      i < 16 ∨ 18 ≤ i →
      b i = (segmentBytes c.localPort c.peerPort c.receiveNext c.rxSize seq flags data size).1 i) :
    ReadBack b (segmentBytes c.localPort c.peerPort c.receiveNext c.rxSize seq flags data size).2 c seq
      flags data size := by
  have hports := segmentBytes_ports c.localPort c.peerPort c.receiveNext c.rxSize seq flags data size
  have hsequence := segmentBytes_sequence c.localPort c.peerPort c.receiveNext c.rxSize seq flags data size
  have hack :=
    segmentBytes_acknowledgement c.localPort c.peerPort c.receiveNext c.rxSize seq flags data size
  have hflags := segmentBytes_flags c.localPort c.peerPort c.receiveNext c.rxSize seq flags data size
  have hheader :=
    segmentBytes_headerLength c.localPort c.peerPort c.receiveNext c.rxSize seq flags data size
  have hwindow := segmentBytes_window c.localPort c.peerPort c.receiveNext c.rxSize seq flags data size
  have hpayload := fun j ↦
    @segmentBytes_payload c.localPort c.peerPort c.receiveNext c.rxSize seq flags data size j
  have hoptions := segmentBytes_options c.localPort c.peerPort c.receiveNext c.rxSize seq flags data size
  rw [segmentBytes_size] at hb ⊢
  generalize (segmentBytes c.localPort c.peerPort c.receiveNext c.rxSize seq flags data size).1 = p at *
  obtain ⟨n, hn⟩ : ∃ n, n = (if has flags tcpSyn then 24 else 20) + size.toNat := ⟨_, rfl⟩
  have htwenty : 20 ≤ if has flags tcpSyn then 24 else 20 := by
    split <;> decide
  rw [← hn] at hb ⊢
  have hread16 : ∀ offset, offset + 2 ≤ n → offset + 2 ≤ 16 ∨ 18 ≤ offset →
      netRead16 (b.shift offset) = netRead16 (p.shift offset) := fun offset hin hne ↦
    netRead16_congr fun i hi ↦ hb (offset + i) (by omega) (by omega)
  have hread32 : ∀ offset, offset + 4 ≤ 16 → netRead32 (b.shift offset) = netRead32 (p.shift offset) :=
    fun offset hin ↦ netRead32_congr fun i hi ↦ hb (offset + i) (by omega) (by omega)
  have hlength : headerLength b = headerLength p := by
    rw [headerLength, hb 12 (by omega) (by decide)]
    rfl
  refine ⟨⟨?_, ?_⟩, hlength.trans hheader, fun hsyn mss ↦ ?_, ?_, ?_, ?_, ?_, ?_, ?_, fun j hj ↦ ?_⟩
  · rw [← hports.1]
    exact netRead16_congr fun i hi ↦ hb i (by omega) (by omega)
  · rw [hread16 2 (by omega) (by decide), hports.2]
  · obtain ⟨hkind, hkindLength, hmss⟩ := hoptions hsyn
    rw [hsyn, if_pos rfl] at hn
    refine synOptions_mss ?_ ?_ ?_ mss
    · rw [hb 20 (by omega) (by decide), hkind]
    · rw [hb 21 (by omega) (by decide), hkindLength]
    · rw [hread16 22 (by omega) (by decide), hmss]
  · rw [hn, hlength, hheader]
  · rw [readSegment, hread32 4 (by decide), hsequence]
  · rw [readSegment, hread32 8 (by decide), hack]
  · rw [readSegment, hb 13 (by omega) (by decide), hflags]
  · rw [readSegment, hread16 14 (by omega) (by decide), hwindow]
  · rw [readSegment, hlength, hheader, hn, Nat.add_sub_cancel_left, UInt32.ofNat_toNat]
  · change b (headerLength b + j) = data j
    rw [hlength, hheader, hb _ (by omega) (by omega), hpayload j hj]

/-- What `output` builds and `send_to` wraps is decoded to the connection's addresses and ports, is never
dropped before the policy has seen it, and is read back as it was meant. -/
theorem sendTo_segment (c : Tcp ρ) (seq : UInt32) (flags : UInt8) (data : Memory) (size : UInt32)
    (hsize : size ≤ tcpMss) (ip : UInt32) (mac : Memory) (e : Environment)
    (rtlSend : Memory → ℕ → Bool) (st : Station) :
    let segment := segmentBytes c.localPort c.peerPort c.receiveNext c.rxSize seq flags data size
    let frame := tcpFrame e.netMac ip mac segment.1 segment.2
    let packet : Packet := ⟨netIp, ip, c.localPort, c.peerPort, UInt16.ofNat (20 + segment.2), netTcp⟩
    packet.length.toNat = 20 + segment.2 ∧
    (∀ available, 20 + segment.2 ≤ available → available ≤ 1500 →
      netDecode (frame.shift 14) available = some packet) ∧
    (sendTo e rtlSend st ip mac segment.1 segment.2 =
      let (allow, system) := fwAccept e.upstream st.system packet 1
      let st := { st with system := system }
      if !allow then (false, st)
      else (rtlSend frame (14 + 20 + segment.2),
        { st with sent := st.sent ++ [(frame, 14 + 20 + segment.2)] })) ∧
    ((∀ i < 6, frame i = mac i) ∧ (∀ i < 6, frame (6 + i) = e.netMac i) ∧
      netRead16 (frame.shift 12) = 0x0800) ∧
    ReadBack (frame.shift 34) (packet.length.toNat - 20) c seq flags data size ∧
    ∀ peer : Tcp ρ, peer.localPort = c.peerPort → peer.peerPort = c.localPort →
      addressed peer (frame.shift 34) (packet.length.toNat - 20) = true := by
  intro segment frame packet
  have hsize' : size.toNat ≤ 536 := UInt32.le_iff_toNat_le.mp hsize
  have htotal : segment.2 = (if has flags tcpSyn then 24 else 20) + size.toNat := rfl
  have hlow : 20 ≤ segment.2 := by
    rw [htotal]
    split <;> omega
  have hhigh : segment.2 ≤ 560 := by
    rw [htotal]
    split <;> omega
  have hlength : packet.length.toNat = 20 + segment.2 :=
    UInt16.toNat_ofNat_of_lt' (show 20 + segment.2 < 2 ^ 16 by omega)
  have hheader : (segment.1 12 >>> 4).toNat * 4 = if has flags tcpSyn then 24 else 20 :=
    segmentBytes_headerLength _ _ _ _ _ _ _ _
  have hoffset : ¬ segment.1 12 >>> 4 < 5 := by
    have hfive : (5 : UInt8).toNat = 5 := rfl
    rw [UInt8.lt_iff_toNat_lt, hfive]
    split at hheader <;> omega
  have hfits : (segment.1 12 >>> 4).toNat * 4 ≤ segment.2 := by
    rw [hheader, htotal]
    exact Nat.le_add_right _ _
  have hports := segmentBytes_ports c.localPort c.peerPort c.receiveNext c.rxSize seq flags data size
  have hdecode : ∀ available, 20 + segment.2 ≤ available → available ≤ 1500 →
      netDecode (tcpPacket ip segment.1 segment.2) available = some packet := by
    intro available havailable hle
    rw [netDecode_tcpPacket ip hlow havailable hle
      (segmentBytes_checksum _ _ _ _ _ _ _ _ (by decide) (by decide))
      (segmentBytes_checksum _ _ _ _ _ _ _ _ (by decide) (by decide)) hoffset hfits]
    rw [hports.1, hports.2]
  have hpacket : frame.shift 14 = tcpPacket ip segment.1 segment.2 := tcpFrame_packet _ _ _ _ _
  have hbody : frame.shift 34 = (tcpPacket ip segment.1 segment.2).shift 20 := by
    rw [← hpacket, Memory.shift_shift]
  have hread : ReadBack (frame.shift 34) segment.2 c seq flags data size := by
    rw [hbody]
    exact readBack_segmentBytes c seq flags data size hsize' fun i hi hne ↦
      tcpPacket_body_of_ne ip segment.1 hi hne
  refine ⟨hlength, fun available havailable hle ↦ ?_, sendTo_eq e rtlSend st ip mac (hdecode _ le_rfl
    (by omega)), tcpFrame_ethernet _ _ _ _ _, ?_, fun peer hlocal hpeer ↦ ?_⟩
  · rw [hpacket]
    exact hdecode available havailable hle
  · rw [hlength, Nat.add_sub_cancel_left]
    exact hread
  · rw [hlength, Nat.add_sub_cancel_left]
    have hfour : frame.shift 34 12 = segment.1 12 := by
      rw [hbody]
      exact tcpPacket_body_of_ne ip segment.1 (by omega) (by decide)
    have hinside : ¬ headerLength (frame.shift 34) > segment.2 := by
      have hwhole := hread.whole
      omega
    unfold addressed
    rw [hread.ports.1, hread.ports.2, hlocal, hpeer, hfour, decide_eq_false (Nat.not_lt.mpr hlow),
      decide_eq_false hoffset, decide_eq_false hinside]
    simp

/-- An established connection that has received all but 1000 bytes of what fits. -/
def receiving : Tcp Unit :=
  { zeroed steadyCore with localPort := 49152, peerPort := 80, receiveNext := 501, rxSize := 15385 }

def hello : Memory := Memory.ofList [104, 101, 108, 108, 111]

def helloFrame : Memory :=
  tcpFrame echoEnvironment.netMac 0xc0000201 (Memory.ofList [2, 0, 0, 0, 0, 9])
    (segmentBytes 49152 80 501 15385 101 (tcpAck ||| tcpPsh) hello 5).1 25

/-- Five bytes of data: the checksum covers an odd length. -/
theorem sendTo_segment_odd :
    netDecode (helloFrame.shift 14) 45 = some ⟨netIp, 0xc0000201, 49152, 80, 45, netTcp⟩ ∧
      ReadBack (helloFrame.shift 34) 25 receiving 101 (tcpAck ||| tcpPsh) hello 5 ∧
      netRead16 (helloFrame.shift 48) = 1000 := by
  obtain ⟨-, hdecode, -, -, hread, -⟩ := sendTo_segment receiving 101 (tcpAck ||| tcpPsh) hello 5 (by decide)
    0xc0000201 (Memory.ofList [2, 0, 0, 0, 0, 9]) echoEnvironment (fun _ _ ↦ true) echoStation
  exact ⟨hdecode 45 (by decide) (by decide), hread, by decide +kernel⟩

end JordyOS.Transport
