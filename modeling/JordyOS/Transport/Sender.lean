import JordyOS.Machine.Serial
import JordyOS.Machine.Tiling
import JordyOS.Transport.Connection
import Mathlib.Tactic.Simps.Basic

/-!
# The sending half

The fields of a connection that decide what is sent again and what counts as delivered, with the
five operations that change them.  `Queue` is the invariant of the retransmission queue: measured
from the initial sequence number, the slots in use tile the interval from `una` to `next`, and each
of them is a piece of the upload or the FIN behind it.

Everything here is independent of timing, of congestion control and of the fate of transmissions.
-/

namespace JordyOS.Transport

open Machine

/-! ## Comparison of sequence numbers -/

theorem before_iff (a b : UInt32) : before a b = true ↔ 2 ^ 31 ≤ (a - b).toNat := by
  rw [before, decide_eq_true_eq, toInt32_neg_iff]

theorem before_iff_distance {base a b : UInt32} (ha : distance base a < 2 ^ 31)
    (hb : distance base b < 2 ^ 31) :
    before a b = true ↔ distance base a < distance base b := by
  rw [before_iff, toNat_sub_eq base]
  omega

/-- The two range checks on an acknowledgement number put it between `una` and `next`. -/
theorem distance_between {base una next a : UInt32}
    (horder : distance base una ≤ distance base next) (hnext : distance base next < 2 ^ 31)
    (hlow : before a una = false) (hhigh : before next a = false) :
    distance base una ≤ distance base a ∧ distance base a ≤ distance base next := by
  have hlow' := (before_iff a una).not.mp (by simp [hlow])
  have hhigh' := (before_iff next a).not.mp (by simp [hhigh])
  rw [toNat_sub_eq base] at hlow' hhigh'
  have := distance_lt base a
  omega

@[simp]
theorem toNat_min32 (a b : UInt32) : (min32 a b).toNat = min a.toNat b.toNat := by
  unfold min32
  split
  · rename_i hlt
    rw [UInt32.lt_iff_toNat_lt] at hlt
    omega
  · rename_i hle
    rw [UInt32.lt_iff_toNat_lt] at hle
    omega

/-! ## State and operations -/

/-- The part of a segment that says which sequence numbers it occupies. -/
structure Slot where
  sequence : UInt32
  offset : UInt32
  length : UInt32
  flags : UInt8
  used : Bool

namespace Slot

/-- The sequence numbers a slot occupies. -/
def size (s : Slot) : UInt32 :=
  s.length + (if has s.flags (tcpSyn ||| tcpFin) then 1 else 0)

/-- What is left of a slot acknowledged in part. -/
def trim (a : UInt32) (s : Slot) : Slot :=
  { s with
    sequence := s.sequence + (a - s.sequence)
    offset := s.offset + (a - s.sequence)
    length := s.length - (a - s.sequence) }

/-- A slot after a cumulative acknowledgement. -/
def acknowledge (a : UInt32) (s : Slot) : Slot :=
  if !s.used || !before s.sequence a then s
  else if a - s.sequence ≥ s.size then { s with used := false }
  else s.trim a

/-- The payload bytes of a slot covered by a cumulative acknowledgement. -/
def ackedBytes (a : UInt32) (s : Slot) : UInt32 :=
  if !s.used || !before s.sequence a then 0
  else if a - s.sequence ≥ s.size then s.length
  else a - s.sequence

/-- The acknowledgement covers this slot and the slot is the FIN. -/
def acksFin (a : UInt32) (s : Slot) : Bool :=
  s.used && before s.sequence a && decide (a - s.sequence ≥ s.size) && has s.flags tcpFin

end Slot

structure Sender where
  isn : UInt32
  una : UInt32
  next : UInt32
  txSize : UInt32
  txOffset : UInt32
  delivered : UInt32
  mss : UInt16
  ownFin : Bool
  ownFinAcked : Bool
  tx : Memory
  slots : Fin tcpSlots → Slot

namespace Sender

/-- The SYN is on its way. -/
@[simps]
def sendSyn (s : Sender) : Sender :=
  { s with
    next := s.next + 1
    slots := Function.update s.slots 0 ⟨s.isn, 0, 0, tcpSyn, true⟩ }

/-- The handshake is complete: the SYN is acknowledged and the segment size agreed. -/
@[simps]
def establish (s : Sender) (mss : UInt16) (a : UInt32) : Sender :=
  { s with
    mss := mss, una := a
    slots := Function.update s.slots 0 { s.slots 0 with used := false } }

/-- `length` new bytes of the upload enter the queue. -/
@[simps]
def push (s : Sender) (slot : Fin tcpSlots) (length : UInt32) : Sender :=
  { s with
    next := s.next + length
    txOffset := s.txOffset + length
    slots := Function.update s.slots slot ⟨s.next, s.txOffset, length, tcpAck ||| tcpPsh, true⟩ }

/-- The FIN enters the queue. -/
@[simps]
def close (s : Sender) (slot : Fin tcpSlots) : Sender :=
  { s with
    next := s.next + 1
    ownFin := true
    slots := Function.update s.slots slot ⟨s.next, s.txOffset, 0, tcpAck ||| tcpFin, true⟩ }

/-- A cumulative acknowledgement. -/
@[simps]
def acknowledge (s : Sender) (a : UInt32) : Sender :=
  { s with
    una := a
    slots := fun i ↦ (s.slots i).acknowledge a
    delivered := s.delivered + ((List.finRange tcpSlots).map fun i ↦ (s.slots i).ackedBytes a).sum
    ownFinAcked := s.ownFinAcked || (List.finRange tcpSlots).any fun i ↦ (s.slots i).acksFin a }

/-- The interval of sequence numbers a slot occupies, measured from the initial one. -/
def piece (s : Sender) (i : Fin tcpSlots) : Option (ℕ × ℕ) :=
  if (s.slots i).used then
    some (distance s.isn (s.slots i).sequence,
      distance s.isn (s.slots i).sequence + (s.slots i).size.toNat)
  else none

/-! ## Before the handshake completes -/

/-- Nothing but the SYN has been sent. -/
structure Opening (s : Sender) : Prop where
  size_le : s.txSize.toNat ≤ tcpBuffer.toNat
  una_eq : s.una = s.isn
  next_eq : s.next = s.isn ∨ s.next = s.isn + 1
  txOffset_eq : s.txOffset = 0
  delivered_eq : s.delivered = 0
  ownFin_eq : s.ownFin = false
  ownFinAcked_eq : s.ownFinAcked = false
  syn : ∀ i, (s.slots i).used = true →
    i = 0 ∧ s.slots i = ⟨s.isn, 0, 0, tcpSyn, true⟩ ∧ s.next = s.isn + 1

/-! ## The retransmission queue -/

/-- A slot holding bytes of the upload. -/
structure IsData (s : Sender) (x : Slot) : Prop where
  flags_eq : x.flags = tcpAck ||| tcpPsh
  length_pos : 1 ≤ x.length.toNat
  length_le : x.length.toNat ≤ s.mss.toNat
  sequence_eq : distance s.isn x.sequence = 1 + x.offset.toNat
  end_le : x.offset.toNat + x.length.toNat ≤ s.txOffset.toNat

/-- The slot holding the FIN. -/
structure IsFin (s : Sender) (x : Slot) : Prop where
  flags_eq : x.flags = tcpAck ||| tcpFin
  length_eq : x.length = 0
  sequence_eq : distance s.isn x.sequence = 1 + s.txSize.toNat
  ownFin_eq : s.ownFin = true

structure Queue (s : Sender) : Prop where
  size_le : s.txSize.toNat ≤ tcpBuffer.toNat
  offset_le : s.txOffset.toNat ≤ s.txSize.toNat
  mss_pos : 1 ≤ s.mss.toNat
  mss_le : s.mss.toNat ≤ tcpMss.toNat
  next_eq : distance s.isn s.next = 1 + s.txOffset.toNat + s.ownFin.toNat
  una_eq : distance s.isn s.una = 1 + s.delivered.toNat + s.ownFinAcked.toNat
  una_le : distance s.isn s.una ≤ distance s.isn s.next
  closed : s.ownFin = true → s.txOffset = s.txSize
  acked_iff : s.ownFinAcked = true ↔ s.ownFin = true ∧ s.una = s.next
  tiles : Tiles s.piece (distance s.isn s.una) (distance s.isn s.next)
  entry : ∀ i, (s.slots i).used = true → s.IsData (s.slots i) ∨ s.IsFin (s.slots i)

variable {s : Sender}

theorem IsData.size_eq {x : Slot} (h : s.IsData x) : x.size = x.length := by
  have hflags : has (tcpAck ||| tcpPsh) (tcpSyn ||| tcpFin) = false := by decide
  simp [Slot.size, h.flags_eq, hflags]

theorem IsFin.size_eq {x : Slot} (h : s.IsFin x) : x.size = 1 := by
  have hflags : has (tcpAck ||| tcpFin) (tcpSyn ||| tcpFin) = true := by decide
  simp [Slot.size, h.flags_eq, h.length_eq, hflags]

theorem IsData.not_fin {x : Slot} (h : s.IsData x) : has x.flags tcpFin = false := by
  rw [h.flags_eq]
  decide

theorem IsFin.fin {x : Slot} (h : s.IsFin x) : has x.flags tcpFin = true := by
  rw [h.flags_eq]
  decide

theorem piece_of_used {i : Fin tcpSlots} (h : (s.slots i).used = true) :
    s.piece i = some (distance s.isn (s.slots i).sequence,
      distance s.isn (s.slots i).sequence + (s.slots i).size.toNat) := if_pos h

theorem piece_of_unused {i : Fin tcpSlots} (h : (s.slots i).used = false) : s.piece i = none := by
  simp [piece, h]

theorem used_of_piece {i : Fin tcpSlots} {p : ℕ × ℕ} (h : s.piece i = some p) :
    (s.slots i).used = true := by
  by_contra hunused
  rw [piece_of_unused (by simpa using hunused)] at h
  cases h

theorem Queue.next_lt (h : s.Queue) : distance s.isn s.next < 2 ^ 31 := by
  have hsize := h.size_le
  have hoffset := h.offset_le
  have hfin := Bool.toNat_le s.ownFin
  rw [h.next_eq]
  simp only [tcpBuffer, UInt32.toNat_ofNat] at hsize
  omega

theorem Queue.slot_le (h : s.Queue) {i : Fin tcpSlots} (hused : (s.slots i).used = true) :
    distance s.isn s.una ≤ distance s.isn (s.slots i).sequence ∧
      0 < (s.slots i).size.toNat ∧
      distance s.isn (s.slots i).sequence + (s.slots i).size.toNat ≤ distance s.isn s.next := by
  have := h.tiles.within i _ (piece_of_used hused)
  omega

end Sender

end JordyOS.Transport
