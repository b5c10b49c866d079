import JordyOS.Net.Checksum

/-!
# Decoding

`net_decode` validates an IPv4 packet without options together with its ICMP, UDP or TCP header and
returns its fields.
-/

namespace JordyOS.Net

open Machine

/-- The transport ports, when the body of the packet passes the checks of its protocol. -/
def netDecodeBody (ip : Memory) (size : ℕ) : Option (UInt16 × UInt16) :=
  let body := ip.shift 20
  let protocol := ip 9
  let pseudo := (netRead16 (ip.shift 12)).toUInt32 + (netRead16 (ip.shift 14)).toUInt32 +
    (netRead16 (ip.shift 16)).toUInt32 + (netRead16 (ip.shift 18)).toUInt32 + protocol.toUInt32 +
    UInt32.ofNat size
  if protocol = netIcmp then
    if size < 8 ∨ netChecksum body size 0 ≠ 0 then none else some (0, 0)
  else if protocol = netUdp then
    if size < 8 ∨ (netRead16 (body.shift 4)).toNat ≠ size ∨
        (netRead16 (body.shift 6) ≠ 0 ∧ netChecksum body size pseudo ≠ 0) then none
    else some (netRead16 body, netRead16 (body.shift 2))
  else if protocol = netTcp then
    if size < 20 ∨ body 12 >>> 4 < 5 ∨ (body 12 >>> 4).toNat * 4 > size ∨
        netChecksum body size pseudo ≠ 0 then none
    else some (netRead16 body, netRead16 (body.shift 2))
  else none

/-- `none` is a packet that `net_decode` rejects. -/
def netDecode (ip : Memory) (available : ℕ) : Option Packet :=
  if available < 20 ∨ available > 1500 ∨ ip 0 ≠ 0x45 ∨ ip 8 = 0 ∨
      netRead16 (ip.shift 6) &&& 0xbfff ≠ 0 ∨ netChecksum ip 20 0 ≠ 0 then none
  else
    let length := netRead16 (ip.shift 2)
    if length < 20 ∨ length.toNat > available then none
    else
      match netDecodeBody ip (length.toNat - 20) with
      | none => none
      | some (sourcePort, destinationPort) =>
        some
          { source := netRead32 (ip.shift 12)
            destination := netRead32 (ip.shift 16)
            sourcePort := sourcePort
            destinationPort := destinationPort
            length := length
            protocol := ip 9 }

/-! ## What is accepted -/

/-- The header of an accepted packet. -/
structure HeaderValid (ip : Memory) (available : ℕ) : Prop where
  available_le : available ≤ 1500
  version : ip 0 = 0x45
  alive : ip 8 ≠ 0
  whole : netRead16 (ip.shift 6) &&& 0xbfff = 0
  checksum : netChecksum ip 20 0 = 0
  twenty_le : 20 ≤ (netRead16 (ip.shift 2)).toNat
  length_le : (netRead16 (ip.shift 2)).toNat ≤ available

/-- The packet that is read from the header and the ports. -/
def packetOf (ip : Memory) (ports : UInt16 × UInt16) : Packet where
  source := netRead32 (ip.shift 12)
  destination := netRead32 (ip.shift 16)
  sourcePort := ports.1
  destinationPort := ports.2
  length := netRead16 (ip.shift 2)
  protocol := ip 9

theorem netDecode_eq_some_iff {ip : Memory} {available : ℕ} {packet : Packet} :
    netDecode ip available = some packet ↔ HeaderValid ip available ∧
      ∃ ports, netDecodeBody ip ((netRead16 (ip.shift 2)).toNat - 20) = some ports ∧
        packet = packetOf ip ports := by
  have htwenty : (20 : UInt16).toNat = 20 := rfl
  unfold netDecode
  split
  · rename_i hbad
    refine iff_of_false nofun ?_
    rintro ⟨hvalid, -⟩
    have htwenty_le := hvalid.twenty_le
    have hlength_le := hvalid.length_le
    have havailable := hvalid.available_le
    rcases hbad with h | h | h | h | h | h
    · omega
    · omega
    · exact h hvalid.version
    · exact hvalid.alive h
    · exact h hvalid.whole
    · exact h hvalid.checksum
  rename_i hgood
  simp only [not_or, not_lt, not_not, gt_iff_lt, ne_eq] at hgood
  dsimp only
  split
  · rename_i hbad
    refine iff_of_false nofun ?_
    rintro ⟨hvalid, -⟩
    rw [UInt16.lt_iff_toNat_lt, htwenty] at hbad
    have htwenty_le := hvalid.twenty_le
    have hlength_le := hvalid.length_le
    omega
  rename_i hlength
  rw [not_or, UInt16.lt_iff_toNat_lt, htwenty] at hlength
  obtain ⟨-, havailable, hversion, halive, hwhole, hchecksum⟩ := hgood
  have hvalid : HeaderValid ip available :=
    ⟨havailable, hversion, halive, hwhole, hchecksum, by omega, by omega⟩
  rw [and_iff_right hvalid]
  cases netDecodeBody ip ((netRead16 (ip.shift 2)).toNat - 20) with
  | none => simp
  | some ports =>
    obtain ⟨sourcePort, destinationPort⟩ := ports
    simp [packetOf, eq_comm]

end JordyOS.Net
