import JordyOS.Net.Decode
import JordyOS.Net.Integrity

/-!
# Corruption and padding

`net_decode` once more with every read checked against the bytes that are there: it stays below the first
1500 of them.  What it returns depends on the declared length only, and no packet survives the flip of one
bit of its header or of an ICMP or TCP body.
-/

namespace JordyOS.Net

open Machine

/-! ## Reads -/

/-- The sum of the pseudo header. -/
def checkedPseudo (bytes : List UInt8) (size : ℕ) : Option UInt32 := do
  let first ← readWord16 bytes 12
  let second ← readWord16 bytes 14
  let third ← readWord16 bytes 16
  let fourth ← readWord16 bytes 18
  let protocol ← readByte bytes 9
  some (first.toUInt32 + second.toUInt32 + third.toUInt32 + fourth.toUInt32 + protocol.toUInt32 +
    UInt32.ofNat size)

/-- The ports, read from the front of the body. -/
def checkedPorts (bytes : List UInt8) : Option (UInt16 × UInt16) := do
  let source ← readWord16 bytes 20
  let destination ← readWord16 bytes 22
  some (source, destination)

/-- The checks of a body of `size` bytes; the inner result is the one of `net_decode`. -/
def checkedBody (bytes : List UInt8) (size : ℕ) : Option (Option (UInt16 × UInt16)) := do
  let protocol ← readByte bytes 9
  let pseudo ← checkedPseudo bytes size
  if protocol = netIcmp then
    if size < 8 then some none else
    let sum ← checkedChecksum bytes 20 size 0
    if sum ≠ 0 then some none else some (some (0, 0))
  else if protocol = netUdp then
    if size < 8 then some none else
    let length ← readWord16 bytes 24
    if length.toNat ≠ size then some none else
    let stored ← readWord16 bytes 26
    if stored = 0 then (checkedPorts bytes).map some else
    let sum ← checkedChecksum bytes 20 size pseudo
    if sum ≠ 0 then some none else (checkedPorts bytes).map some
  else if protocol = netTcp then
    if size < 20 then some none else
    let offset ← readByte bytes 32
    if offset >>> 4 < 5 ∨ (offset >>> 4).toNat * 4 > size then some none else
    let sum ← checkedChecksum bytes 20 size pseudo
    if sum ≠ 0 then some none else (checkedPorts bytes).map some
  else some none

/-- The checks of the first 20 bytes, in their order. -/
def checkedHeader (bytes : List UInt8) : Option Bool := do
  let version ← readByte bytes 0
  if version ≠ 0x45 then some false else
  let alive ← readByte bytes 8
  if alive = 0 then some false else
  let fragment ← readWord16 bytes 6
  if fragment &&& 0xbfff ≠ 0 then some false else
  let sum ← checkedChecksum bytes 0 20 0
  if sum ≠ 0 then some false else some true

def checkedDecode (bytes : List UInt8) (available : ℕ) : Option (Option Packet) :=
  if available < 20 ∨ available > 1500 then some none else do
  let valid ← checkedHeader bytes
  if valid = false then some none else
  let length ← readWord16 bytes 2
  if length < 20 ∨ length.toNat > available then some none else
  match ← checkedBody bytes (length.toNat - 20) with
  | none => some none
  | some (sourcePort, destinationPort) =>
    let source ← readWord32 bytes 12
    let destination ← readWord32 bytes 16
    let protocol ← readByte bytes 9
    some (some
      { source := source
        destination := destination
        sourcePort := sourcePort
        destinationPort := destinationPort
        length := length
        protocol := protocol })

variable {bytes : List UInt8} {ip other : Memory} {available size : ℕ}

theorem checkedPorts_eq (h : 24 ≤ bytes.length) : checkedPorts bytes =
    some (netRead16 ((Memory.ofList bytes).shift 20), netRead16 ((Memory.ofList bytes).shift 22)) := by
  unfold checkedPorts
  rw [readWord16_of_lt (by omega), readWord16_of_lt (by omega)]
  rfl

/-- The sum of the pseudo header of a packet. -/
def pseudoSum (ip : Memory) (size : ℕ) : UInt32 :=
  (netRead16 (ip.shift 12)).toUInt32 + (netRead16 (ip.shift 14)).toUInt32 +
    (netRead16 (ip.shift 16)).toUInt32 + (netRead16 (ip.shift 18)).toUInt32 + (ip 9).toUInt32 +
    UInt32.ofNat size

/-- Four words, a byte and a size are less than six words. -/
theorem pseudoSum_le (ip : Memory) (hsize : size ≤ 1480) : (pseudoSum ip size).toNat ≤ 6 * 65535 := by
  have hfirst := (netRead16 (ip.shift 12)).toNat_lt
  have hsecond := (netRead16 (ip.shift 14)).toNat_lt
  have hthird := (netRead16 (ip.shift 16)).toNat_lt
  have hfourth := (netRead16 (ip.shift 18)).toNat_lt
  have hprotocol := (ip 9).toNat_lt
  unfold pseudoSum
  simp only [UInt32.toNat_add, UInt16.toNat_toUInt32, UInt8.toNat_toUInt32, UInt32.toNat_ofNat']
  omega

theorem checkedPseudo_eq (h : 20 ≤ bytes.length) :
    checkedPseudo bytes size = some (pseudoSum (Memory.ofList bytes) size) := by
  unfold checkedPseudo
  rw [readWord16_of_lt (by omega), readWord16_of_lt (by omega), readWord16_of_lt (by omega),
    readWord16_of_lt (by omega), readByte_of_lt (by omega)]
  rfl

/-- The checks of a body read inside the packet. -/
theorem checkedBody_eq (h : 20 + size ≤ bytes.length) (hsize : size ≤ 1480) :
    checkedBody bytes size = some (netDecodeBody (Memory.ofList bytes) size) := by
  have hsum : ∀ sum : UInt32, sum.toNat ≤ 6 * 65535 → checkedChecksum bytes 20 size sum =
      some (netChecksum ((Memory.ofList bytes).shift 20) size sum) := fun sum hle ↦
    checkedChecksum_eq h (by omega) hle
  have hpseudo := hsum _ (pseudoSum_le (Memory.ofList bytes) hsize)
  have hzero := hsum 0 (Nat.zero_le _)
  unfold checkedBody netDecodeBody
  rw [readByte_of_lt (by omega), checkedPseudo_eq (by omega)]
  dsimp only [Option.bind_eq_bind, Option.bind_some]
  rw [← pseudoSum]
  by_cases hicmp : Memory.ofList bytes 9 = netIcmp
  · rw [if_pos hicmp, if_pos hicmp]
    by_cases hshort : size < 8
    · rw [if_pos hshort, if_pos (Or.inl hshort)]
    rw [if_neg hshort, hzero]
    dsimp only [Option.bind_eq_bind, Option.bind_some]
    by_cases hchecksum : netChecksum ((Memory.ofList bytes).shift 20) size 0 ≠ 0
    · rw [if_pos hchecksum, if_pos (Or.inr hchecksum)]
    · rw [if_neg hchecksum, if_neg (not_or.mpr ⟨hshort, hchecksum⟩)]
  rw [if_neg hicmp, if_neg hicmp]
  by_cases hudp : Memory.ofList bytes 9 = netUdp
  · rw [if_pos hudp, if_pos hudp]
    by_cases hshort : size < 8
    · rw [if_pos hshort, if_pos (Or.inl hshort)]
    rw [if_neg hshort, readWord16_of_lt (by omega)]
    dsimp only [Option.bind_eq_bind, Option.bind_some]
    rw [Memory.shift_shift, Memory.shift_shift, Memory.shift_shift]
    by_cases hlength : (netRead16 ((Memory.ofList bytes).shift 24)).toNat ≠ size
    · rw [if_pos hlength, if_pos (Or.inr (Or.inl hlength))]
    rw [if_neg hlength, readWord16_of_lt (by omega), checkedPorts_eq (by omega), hpseudo]
    dsimp only [Option.bind_eq_bind, Option.bind_some, Option.map_some]
    by_cases hstored : netRead16 ((Memory.ofList bytes).shift 26) = 0
    · rw [if_pos hstored, if_neg]
      exact not_or.mpr ⟨hshort, not_or.mpr ⟨hlength, fun hfails ↦ hfails.1 hstored⟩⟩
    rw [if_neg hstored]
    by_cases hchecksum : netChecksum ((Memory.ofList bytes).shift 20) size
        (pseudoSum (Memory.ofList bytes) size) ≠ 0
    · rw [if_pos hchecksum, if_pos (Or.inr (Or.inr ⟨hstored, hchecksum⟩))]
    · rw [if_neg hchecksum, if_neg]
      exact not_or.mpr ⟨hshort, not_or.mpr ⟨hlength, fun hfails ↦ hchecksum hfails.2⟩⟩
  rw [if_neg hudp, if_neg hudp]
  by_cases htcp : Memory.ofList bytes 9 = netTcp
  · rw [if_pos htcp, if_pos htcp]
    by_cases hshort : size < 20
    · rw [if_pos hshort, if_pos (Or.inl hshort)]
    rw [if_neg hshort, readByte_of_lt (by omega)]
    dsimp only [Option.bind_eq_bind, Option.bind_some]
    rw [Memory.shift_apply, Memory.shift_shift]
    by_cases hlow : Memory.ofList bytes 32 >>> 4 < 5
    · rw [if_pos (Or.inl hlow), if_pos (Or.inr (Or.inl hlow))]
    by_cases hhigh : (Memory.ofList bytes 32 >>> 4).toNat * 4 > size
    · rw [if_pos (Or.inr hhigh), if_pos (Or.inr (Or.inr (Or.inl hhigh)))]
    rw [if_neg (not_or.mpr ⟨hlow, hhigh⟩), hpseudo, checkedPorts_eq (by omega)]
    dsimp only [Option.bind_eq_bind, Option.bind_some, Option.map_some]
    by_cases hchecksum : netChecksum ((Memory.ofList bytes).shift 20) size
        (pseudoSum (Memory.ofList bytes) size) ≠ 0
    · rw [if_pos hchecksum, if_pos (Or.inr (Or.inr (Or.inr hchecksum)))]
    · rw [if_neg hchecksum, if_neg]
      exact not_or.mpr ⟨hshort, not_or.mpr ⟨hlow, not_or.mpr ⟨hhigh, hchecksum⟩⟩⟩
  · rw [if_neg htcp, if_neg htcp]

/-- The checks of the header read its 20 bytes. -/
theorem checkedHeader_eq (h : 20 ≤ bytes.length) : checkedHeader bytes = some (decide
    (Memory.ofList bytes 0 = 0x45 ∧ Memory.ofList bytes 8 ≠ 0 ∧
      netRead16 ((Memory.ofList bytes).shift 6) &&& 0xbfff = 0 ∧ netChecksum (Memory.ofList bytes) 20 0 = 0)) := by
  unfold checkedHeader
  rw [readByte_of_lt (by omega), readByte_of_lt (by omega), readWord16_of_lt (by omega),
    checkedChecksum_eq (by omega) (by omega) (Nat.zero_le _), Memory.shift_zero]
  dsimp only [Option.bind_eq_bind, Option.bind_some]
  split
  · rename_i hversion
    rw [decide_eq_false fun hvalid ↦ hversion hvalid.1]
  split
  · rename_i halive
    rw [decide_eq_false fun hvalid ↦ hvalid.2.1 halive]
  split
  · rename_i hfragment
    rw [decide_eq_false fun hvalid ↦ hfragment hvalid.2.2.1]
  split
  · rename_i hchecksum
    rw [decide_eq_false fun hvalid ↦ hchecksum hvalid.2.2.2]
  · rename_i hversion halive hfragment hchecksum
    rw [decide_eq_true ⟨not_not.mp hversion, halive, not_not.mp hfragment, not_not.mp hchecksum⟩]

/-- Every read is inside the available bytes, and below 1500. -/
theorem checkedDecode_eq (h : bytes.length = min available 1500) :
    checkedDecode bytes available = some (netDecode (Memory.ofList bytes) available) := by
  have htwenty : (20 : UInt16).toNat = 20 := rfl
  unfold checkedDecode netDecode
  by_cases hrange : available < 20 ∨ available > 1500
  · rw [if_pos hrange, if_pos (hrange.imp_right Or.inl)]
  rw [if_neg hrange, checkedHeader_eq (by omega)]
  obtain ⟨hlow, hhigh⟩ := not_or.mp hrange
  dsimp only [Option.bind_eq_bind, Option.bind_some]
  by_cases hvalid : Memory.ofList bytes 0 = 0x45 ∧ Memory.ofList bytes 8 ≠ 0 ∧
      netRead16 ((Memory.ofList bytes).shift 6) &&& 0xbfff = 0 ∧ netChecksum (Memory.ofList bytes) 20 0 = 0
  · rw [decide_eq_true hvalid]
    obtain ⟨hversion, halive, hfragment, hchecksum⟩ := hvalid
    have hgood : ¬ (available < 20 ∨ available > 1500 ∨ Memory.ofList bytes 0 ≠ 0x45 ∨
        Memory.ofList bytes 8 = 0 ∨ netRead16 ((Memory.ofList bytes).shift 6) &&& 0xbfff ≠ 0 ∨
        netChecksum (Memory.ofList bytes) 20 0 ≠ 0) := by
      simp only [hlow, hhigh, hversion, halive, hfragment, hchecksum, ne_eq, not_true_eq_false, or_false,
        not_false_eq_true]
    rw [if_neg hgood, if_neg Bool.noConfusion, readWord16_of_lt (by omega)]
    dsimp only [Option.bind_some]
    split
    · rfl
    rename_i hlength
    rw [not_or, UInt16.lt_iff_toNat_lt, htwenty] at hlength
    rw [checkedBody_eq (by omega) (by omega)]
    dsimp only [Option.bind_some]
    cases netDecodeBody (Memory.ofList bytes) ((netRead16 ((Memory.ofList bytes).shift 2)).toNat - 20) with
    | none => rfl
    | some ports =>
      rw [readWord32_of_lt (by omega), readWord32_of_lt (by omega), readByte_of_lt (by omega)]
      rfl
  · rw [decide_eq_false hvalid, if_pos rfl, if_pos]
    by_contra hgood
    simp only [not_or, not_not, ne_eq] at hgood
    exact hvalid hgood.2.2

/-! ## Padding -/

/-- The checks of the body read the body and the header only. -/
theorem netDecodeBody_congr (h : ∀ i < 20 + size, ip i = other i) :
    netDecodeBody ip size = netDecodeBody other size := by
  have hword := fun offset (hoffset : offset + 2 ≤ 20 + size) ↦
    (netRead16_congr fun i hi ↦ h (offset + i) (by omega) :
      netRead16 (ip.shift offset) = netRead16 (other.shift offset))
  have hbody := fun offset (hoffset : offset + 2 ≤ size) ↦
    (netRead16_congr fun i hi ↦ h (20 + (offset + i)) (by omega) :
      netRead16 ((ip.shift 20).shift offset) = netRead16 ((other.shift 20).shift offset))
  have hchecksum : ∀ sum, netChecksum (ip.shift 20) size sum = netChecksum (other.shift 20) size sum :=
    netChecksum_congr fun i hi ↦ h (20 + i) (by omega)
  have hprotocol : ip 9 = other 9 := h 9 (by omega)
  have hpseudo : pseudoSum ip size = pseudoSum other size := by
    unfold pseudoSum
    rw [hword 12 (by omega), hword 14 (by omega), hword 16 (by omega), hword 18 (by omega), hprotocol]
  unfold netDecodeBody
  dsimp only
  rw [← pseudoSum, ← pseudoSum, hpseudo, hprotocol, hchecksum, hchecksum]
  by_cases height : size < 8
  · have hshort : size < 20 := by omega
    rw [if_pos (Or.inl height), if_pos (Or.inl height), if_pos (Or.inl hshort), if_pos (Or.inl height),
      if_pos (Or.inl hshort)]
  rw [hword 20 (by omega), hbody 2 (by omega), hbody 4 (by omega), hbody 6 (by omega)]
  by_cases htwenty : size < 20
  · rw [if_pos (Or.inl htwenty), if_pos (Or.inl htwenty)]
  · have hoffset : ip.shift 20 12 = other.shift 20 12 := h (20 + 12) (by omega)
    rw [hoffset]

/-- The header depends on its 20 bytes, whatever is available behind the declared length. -/
theorem HeaderValid.congr {available' : ℕ} (h : HeaderValid ip available) (hle : available' ≤ 1500)
    (hlength : (netRead16 (ip.shift 2)).toNat ≤ available') (hsame : ∀ i < 20, ip i = other i) :
    HeaderValid other available' := by
  have hword := fun offset (hoffset : offset + 2 ≤ 20) ↦
    (netRead16_congr fun i hi ↦ hsame (offset + i) (by omega) :
      netRead16 (ip.shift offset) = netRead16 (other.shift offset))
  refine ⟨hle, ?_, ?_, ?_, ?_, ?_, ?_⟩
  · rw [← hsame 0 (by omega)]
    exact h.version
  · rw [← hsame 8 (by omega)]
    exact h.alive
  · rw [← hword 6 (by omega)]
    exact h.whole
  · rw [← netChecksum_congr hsame]
    exact h.checksum
  · rw [← hword 2 (by omega)]
    exact h.twenty_le
  · rw [← hword 2 (by omega)]
    exact hlength

theorem packetOf_congr (hsame : ∀ i < 20, ip i = other i) (ports : UInt16 × UInt16) :
    packetOf ip ports = packetOf other ports := by
  have hwide := fun offset (hoffset : offset + 4 ≤ 20) ↦
    (netRead32_congr fun i hi ↦ hsame (offset + i) (by omega) :
      netRead32 (ip.shift offset) = netRead32 (other.shift offset))
  have hlength : netRead16 (ip.shift 2) = netRead16 (other.shift 2) :=
    netRead16_congr fun i hi ↦ hsame (2 + i) (by omega)
  unfold packetOf
  rw [hwide 12 (by omega), hwide 16 (by omega), hlength, hsame 9 (by omega)]

/-- What is accepted stays accepted when bytes behind the declared length change. -/
theorem netDecode_padded {available' : ℕ} {packet : Packet} (h : netDecode ip available = some packet)
    (hle : available' ≤ 1500) (hlength : (netRead16 (ip.shift 2)).toNat ≤ available')
    (hsame : ∀ i < (netRead16 (ip.shift 2)).toNat, ip i = other i) :
    netDecode other available' = some packet := by
  obtain ⟨hvalid, ports, hbody, rfl⟩ := netDecode_eq_some_iff.mp h
  have htwenty := hvalid.twenty_le
  have hheader : ∀ i < 20, ip i = other i := fun i hi ↦ hsame i (by omega)
  have hdeclared : netRead16 (ip.shift 2) = netRead16 (other.shift 2) :=
    netRead16_congr fun i hi ↦ hheader (2 + i) (by omega)
  refine netDecode_eq_some_iff.mpr ⟨hvalid.congr hle hlength hheader, ports, ?_, packetOf_congr hheader ports⟩
  rw [← hdeclared, ← netDecodeBody_congr fun i hi ↦ hsame i (by omega)]
  exact hbody

/-- The answer depends on the bytes that are read only. -/
theorem netDecode_congr (h : ∀ i < min available 1500, ip i = other i) :
    netDecode ip available = netDecode other available := by
  have honly : ∀ {p q : Memory} {packet : Packet}, (∀ i < min available 1500, p i = q i) →
      netDecode p available = some packet → netDecode q available = some packet := by
    intro p q packet hsame hp
    have hvalid := (netDecode_eq_some_iff.mp hp).1
    have hle := hvalid.available_le
    have hlength := hvalid.length_le
    exact netDecode_padded hp hle hlength fun i hi ↦ hsame i (by omega)
  exact Option.ext fun packet ↦ ⟨honly h, honly fun i hi ↦ (h i hi).symm⟩

/-! ## Flipped bits -/

/-- The memory with one bit of a byte flipped. -/
def flip (p : Memory) (i b : ℕ) : Memory := p.set i (p i ^^^ (1 <<< UInt8.ofNat b))

theorem flipped_ne (byte : UInt8) {b : ℕ} (hb : b < 8) : byte ^^^ (1 <<< UInt8.ofNat b) ≠ byte := by
  have hbit : ∀ b : Fin 8, (1 : UInt8) <<< UInt8.ofNat b ≠ 0 := by decide
  intro hsame
  have hxor : byte ^^^ (1 <<< UInt8.ofNat b) = byte ^^^ 0 := hsame.trans UInt8.xor_zero.symm
  exact hbit ⟨b, hb⟩ ((UInt8.xor_right_inj byte).mp hxor)

/-- The checksums that an accepted body has passed. -/
theorem checksum_of_netDecodeBody {ports : UInt16 × UInt16} (h : netDecodeBody ip size = some ports) :
    (ip 9 = netIcmp → netChecksum (ip.shift 20) size 0 = 0) ∧
    (ip 9 = netTcp → netChecksum (ip.shift 20) size (pseudoSum ip size) = 0) := by
  unfold netDecodeBody at h
  dsimp only at h
  rw [← pseudoSum] at h
  constructor
  · intro hicmp
    rw [if_pos hicmp] at h
    by_contra hchecksum
    rw [if_pos (Or.inr hchecksum)] at h
    cases h
  · intro htcp
    rw [if_neg (by rw [htcp]; decide), if_neg (by rw [htcp]; decide), if_pos htcp] at h
    by_contra hchecksum
    rw [if_pos (Or.inr (Or.inr (Or.inr hchecksum)))] at h
    cases h

variable {packet : Packet} {i b : ℕ}

/-- A packet with a flipped bit in its header is rejected, whatever the bit means. -/
theorem netDecode_flip_header (h : netDecode ip available = some packet) (hi : i < 20) (hb : b < 8) :
    netDecode (flip ip i b) available = none := by
  rw [Option.eq_none_iff_forall_ne_some]
  intro other hother
  have hvalid := (netDecode_eq_some_iff.mp h).1
  have hflipped := (netDecode_eq_some_iff.mp hother).1
  exact netChecksum_set_ne hvalid.checksum (by decide) hi (flipped_ne (ip i) hb) hflipped.checksum

/-- A flipped bit of an ICMP or TCP body leaves the header as it was and is rejected behind it. -/
theorem netDecode_flip_body (h : netDecode ip available = some packet)
    (hprotocol : ip 9 = netIcmp ∨ ip 9 = netTcp) (hlow : 20 ≤ i)
    (hhigh : i < (netRead16 (ip.shift 2)).toNat) (hb : b < 8) : netDecode (flip ip i b) available = none := by
  rw [Option.eq_none_iff_forall_ne_some]
  intro other hother
  obtain ⟨hvalid, ports, hbody, -⟩ := netDecode_eq_some_iff.mp h
  obtain ⟨-, otherPorts, hflipped, -⟩ := netDecode_eq_some_iff.mp hother
  have hheader : ∀ j < 20, ip j = flip ip i b j := fun j hj ↦ (Memory.set_of_ne _ _ (by omega)).symm
  have hword := fun offset (hoffset : offset + 2 ≤ 20) ↦
    (netRead16_congr fun j hj ↦ hheader (offset + j) (by omega) :
      netRead16 (ip.shift offset) = netRead16 ((flip ip i b).shift offset))
  have hshift : (flip ip i b).shift 20 = (ip.shift 20).set (i - 20) (ip i ^^^ (1 <<< UInt8.ofNat b)) := by
    funext j
    change (if 20 + j = i then _ else _) = if j = i - 20 then _ else _
    exact if_congr (by omega) rfl rfl
  have hsize := hvalid.length_le.trans hvalid.available_le
  have hplace : ip.shift 20 (i - 20) = ip i := by rw [Memory.shift_apply, Nat.add_sub_cancel' hlow]
  have hbyte : ip i ^^^ (1 <<< UInt8.ofNat b) ≠ ip.shift 20 (i - 20) := by
    rw [hplace]
    exact flipped_ne (ip i) hb
  rw [← hword 2 (by omega)] at hflipped
  obtain ⟨hicmp, htcp⟩ := checksum_of_netDecodeBody hbody
  obtain ⟨hicmpFlipped, htcpFlipped⟩ := checksum_of_netDecodeBody hflipped
  have hpseudo : pseudoSum (flip ip i b) ((netRead16 (ip.shift 2)).toNat - 20) =
      pseudoSum ip ((netRead16 (ip.shift 2)).toNat - 20) := by
    unfold pseudoSum
    rw [← hword 12 (by omega), ← hword 14 (by omega), ← hword 16 (by omega), ← hword 18 (by omega),
      ← hheader 9 (by omega)]
  rw [← hheader 9 (by omega), hshift] at hicmpFlipped htcpFlipped
  rw [hpseudo] at htcpFlipped
  have hsum := pseudoSum_le ip (by omega : (netRead16 (ip.shift 2)).toNat - 20 ≤ 1480)
  rcases hprotocol with hprotocol | hprotocol
  · exact netChecksum_set_ne (hicmp hprotocol) (by rw [UInt32.toNat_zero]; omega) (by omega) hbyte
      (hicmpFlipped hprotocol)
  · exact netChecksum_set_ne (htcp hprotocol) (by omega) (by omega) hbyte (htcpFlipped hprotocol)

/-- `net_decode` as it is called: the answer, and what the packet behind the pointer holds then. -/
def netDecodeInto (ip : Memory) (available : ℕ) (p : Packet) : Bool × Packet :=
  match netDecode ip available with
  | none => (false, p)
  | some packet => (true, packet)

/-- For every memory and every available length: all reads are below the available bytes and below 1500;
bytes behind the declared length do not count; and an accepted packet is rejected, with the output left as
it was, after any flip of a bit of its header or of its ICMP or TCP body. -/
theorem netDecode_integrity (ip : Memory) (available : ℕ) :
    checkedDecode (ip.bytes (min available 1500)) available = some (netDecode ip available) ∧
    (∀ other available', 20 ≤ available → available ≤ 1500 → 20 ≤ available' → available' ≤ 1500 →
      netRead16 (other.shift 2) = netRead16 (ip.shift 2) →
      (netRead16 (ip.shift 2)).toNat ≤ available → (netRead16 (ip.shift 2)).toNat ≤ available' →
      (∀ i < (netRead16 (ip.shift 2)).toNat, other i = ip i) →
      netDecode other available' = netDecode ip available) ∧
    ∀ packet, netDecode ip available = some packet → ∀ i b, b < 8 →
      (i < 20 ∨ (ip 9 = netIcmp ∨ ip 9 = netTcp) ∧ i < (netRead16 (ip.shift 2)).toNat) →
      ∀ p, netDecodeInto (flip ip i b) available p = (false, p) := by
  refine ⟨?_, ?_, ?_⟩
  · have hlength : (ip.bytes (min available 1500)).length = min available 1500 := ip.length_bytes _
    rw [checkedDecode_eq hlength]
    refine congrArg some (netDecode_congr fun i hi ↦ ?_)
    exact Memory.ofList_bytes ip hi
  · intro other available' _ hle _ hle' hdeclared hin hin' hsame
    refine Option.ext fun packet ↦ ⟨fun h ↦ ?_, fun h ↦ ?_⟩
    · refine netDecode_padded h hle (by rwa [hdeclared]) ?_
      rw [hdeclared]
      exact hsame
    · exact netDecode_padded h hle' hin' fun i hi ↦ (hsame i hi).symm
  · intro packet h i b hb hplace p
    have hnone : netDecode (flip ip i b) available = none := by
      rcases Nat.lt_or_ge i 20 with hi | hi
      · exact netDecode_flip_header h hi hb
      · obtain ⟨hprotocol, hhigh⟩ := hplace.resolve_left (Nat.not_lt.mpr hi)
        exact netDecode_flip_body h hprotocol hi hhigh hb
    rw [netDecodeInto, hnone]

end JordyOS.Net
