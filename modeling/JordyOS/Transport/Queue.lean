import JordyOS.Transport.Sender
import Mathlib.Algebra.BigOperators.Fin

/-!
# The retransmission queue is preserved

Each operation of the sending half keeps the queue invariant.  For a cumulative acknowledgement the
slots are trimmed at the acknowledgement number, which is the trimming of a tiling, and the bytes
counted as delivered are the part of the tiling that was cut off.
-/

namespace JordyOS.Transport

open Machine

namespace Sender

variable {s : Sender}

/-! ## Opening -/

theorem Opening.sendSyn (h : s.Opening) (hnext : s.next = s.isn) : s.sendSyn.Opening where
  size_le := h.size_le
  una_eq := h.una_eq
  next_eq := Or.inr (by simp [Sender.sendSyn, hnext])
  txOffset_eq := h.txOffset_eq
  delivered_eq := h.delivered_eq
  ownFin_eq := h.ownFin_eq
  ownFinAcked_eq := h.ownFinAcked_eq
  syn i hused := by
    have hne : s.isn ≠ s.isn + 1 := by
      intro heq
      have hdistance := congrArg (distance s.isn) heq
      simp at hdistance
    by_cases hi : i = 0
    · subst hi
      exact ⟨rfl, by simp [Sender.sendSyn], by simp [Sender.sendSyn, hnext]⟩
    · simp only [Sender.sendSyn, Function.update_of_ne hi] at hused
      exact absurd (hnext.symm.trans (h.syn i hused).2.2) hne

theorem Opening.establish (h : s.Opening) (hnext : s.next = s.isn + 1) {mss : UInt16}
    (hpos : 1 ≤ mss.toNat) (hle : mss.toNat ≤ tcpMss.toNat) :
    (s.establish mss (s.isn + 1)).Queue := by
  have hunused : ∀ i, ((s.establish mss (s.isn + 1)).slots i).used = false := by
    intro i
    by_cases hi : i = 0
    · subst hi
      simp [Sender.establish]
    · cases hused : ((s.establish mss (s.isn + 1)).slots i).used with
      | false => rfl
      | true =>
        simp only [Sender.establish, Function.update_of_ne hi] at hused
        exact absurd (h.syn i hused).1 hi
  refine
    { size_le := h.size_le
      offset_le := by simp [Sender.establish, h.txOffset_eq]
      mss_pos := hpos
      mss_le := hle
      next_eq := ?_
      una_eq := ?_
      una_le := ?_
      closed := ?_
      acked_iff := ?_
      tiles := ?_
      entry := fun i hused ↦ absurd hused (by rw [hunused i]; exact Bool.false_ne_true) }
  · simp [Sender.establish, hnext, h.txOffset_eq, h.ownFin_eq]
  · simp [Sender.establish, h.delivered_eq, h.ownFinAcked_eq]
  · simp [Sender.establish, hnext]
  · simp [Sender.establish, h.ownFin_eq]
  · simp [Sender.establish, h.ownFin_eq, h.ownFinAcked_eq]
  · simp only [establish_isn, establish_una, establish_next, hnext]
    exact Tiles.of_none fun i ↦ piece_of_unused (hunused i)

/-! ## Appending -/

/-- The piece added by an operation that stores one slot at `next`. -/
theorem piece_update {t : Sender} {slot : Fin tcpSlots} {x : Slot} (hisn : t.isn = s.isn)
    (hslots : t.slots = Function.update s.slots slot x) (hused : x.used = true) :
    t.piece = Function.update s.piece slot
      (some (distance s.isn x.sequence, distance s.isn x.sequence + x.size.toNat)) := by
  funext i
  by_cases hi : i = slot
  · subst hi
    simp [piece, hslots, hisn, hused]
  · simp [piece, hslots, hisn, Function.update_of_ne hi]

theorem IsData.of_eq {t : Sender} {x : Slot} (h : s.IsData x) (hisn : t.isn = s.isn)
    (hmss : t.mss = s.mss) (hoffset : s.txOffset.toNat ≤ t.txOffset.toNat) : t.IsData x where
  flags_eq := h.flags_eq
  length_pos := h.length_pos
  length_le := by rw [hmss]; exact h.length_le
  sequence_eq := by rw [hisn]; exact h.sequence_eq
  end_le := h.end_le.trans hoffset

theorem IsFin.of_eq {t : Sender} {x : Slot} (h : s.IsFin x) (hisn : t.isn = s.isn)
    (hsize : t.txSize = s.txSize) (hfin : t.ownFin = s.ownFin) : t.IsFin x where
  flags_eq := h.flags_eq
  length_eq := h.length_eq
  sequence_eq := by rw [hisn, hsize]; exact h.sequence_eq
  ownFin_eq := by rw [hfin]; exact h.ownFin_eq

theorem Queue.ownFinAcked_of_open (h : s.Queue) (hopen : s.ownFin = false) :
    s.ownFinAcked = false := by
  cases hacked : s.ownFinAcked with
  | false => rfl
  | true => simp [h.acked_iff, hopen] at hacked

theorem Queue.push (h : s.Queue) {slot : Fin tcpSlots} {length : UInt32}
    (hslot : (s.slots slot).used = false) (hpos : 1 ≤ length.toNat)
    (hmss : length.toNat ≤ s.mss.toNat)
    (hroom : length.toNat ≤ s.txSize.toNat - s.txOffset.toNat) (hopen : s.ownFin = false) :
    (s.push slot length).Queue := by
  have hsize : s.txSize.toNat ≤ 16384 := h.size_le
  have hnext : distance s.isn s.next = 1 + s.txOffset.toNat := by simp [h.next_eq, hopen]
  have hoffset : (s.txOffset + length).toNat = s.txOffset.toNat + length.toNat := by
    rw [UInt32.toNat_add, Nat.mod_eq_of_lt (by have := h.offset_le; omega)]
  have hnext' : distance s.isn (s.next + length) = distance s.isn s.next + length.toNat :=
    distance_add_of_lt (by have := h.offset_le; omega)
  have hdata : (s.push slot length).IsData
      ⟨s.next, s.txOffset, length, tcpAck ||| tcpPsh, true⟩ :=
    ⟨rfl, hpos, hmss, hnext, by rw [push_txOffset, hoffset]⟩
  refine
    { size_le := h.size_le
      offset_le := ?_
      mss_pos := h.mss_pos
      mss_le := h.mss_le
      next_eq := ?_
      una_eq := h.una_eq
      una_le := ?_
      closed := ?_
      acked_iff := ?_
      tiles := ?_
      entry := ?_ }
  · rw [push_txOffset, push_txSize, hoffset]
    have := h.offset_le
    omega
  · simp only [push_isn, push_next, push_txOffset, push_ownFin, hnext', hoffset, hnext, hopen,
      Bool.toNat_false]
    omega
  · simp only [push_isn, push_una, push_next, hnext']
    exact h.una_le.trans (Nat.le_add_right _ _)
  · simp [hopen]
  · simp [hopen, h.ownFinAcked_of_open hopen]
  · rw [piece_update (s := s) (t := s.push slot length)
      (x := ⟨s.next, s.txOffset, length, tcpAck ||| tcpPsh, true⟩) rfl rfl rfl]
    simp only [hdata.size_eq, push_isn, push_una, push_next, hnext']
    exact h.tiles.push (piece_of_unused hslot) h.una_le hpos
  · intro i hused
    by_cases hi : i = slot
    · subst hi
      left
      simpa using hdata
    · simp only [push_slots, Function.update_of_ne hi] at hused ⊢
      refine (h.entry i hused).imp (fun hd ↦ hd.of_eq rfl rfl ?_) fun hf ↦ hf.of_eq rfl rfl rfl
      rw [push_txOffset, hoffset]
      exact Nat.le_add_right _ _

theorem Queue.close (h : s.Queue) {slot : Fin tcpSlots} (hslot : (s.slots slot).used = false)
    (hopen : s.ownFin = false) (hall : s.txOffset = s.txSize) : (s.close slot).Queue := by
  have hsize : s.txSize.toNat ≤ 16384 := h.size_le
  have hnext : distance s.isn s.next = 1 + s.txSize.toNat := by simp [h.next_eq, hopen, hall]
  have hnext' : distance s.isn (s.next + 1) = distance s.isn s.next + 1 :=
    distance_add_of_lt (by rw [UInt32.toNat_one]; omega)
  have hfin : (s.close slot).IsFin ⟨s.next, s.txOffset, 0, tcpAck ||| tcpFin, true⟩ :=
    ⟨rfl, rfl, hnext, rfl⟩
  have huna := h.una_le
  refine
    { size_le := h.size_le
      offset_le := h.offset_le
      mss_pos := h.mss_pos
      mss_le := h.mss_le
      next_eq := ?_
      una_eq := h.una_eq
      una_le := ?_
      closed := fun _ ↦ hall
      acked_iff := ?_
      tiles := ?_
      entry := ?_ }
  · simp [hnext', hnext, hall]
  · simp only [close_isn, close_una, close_next, hnext']
    omega
  · have hne : s.una ≠ s.next + 1 := by
      intro heq
      rw [heq, hnext'] at huna
      omega
    simp [h.ownFinAcked_of_open hopen, hne]
  · rw [piece_update (s := s) (t := s.close slot)
      (x := ⟨s.next, s.txOffset, 0, tcpAck ||| tcpFin, true⟩) rfl rfl rfl]
    simp only [hfin.size_eq, UInt32.toNat_one, close_isn, close_una, close_next, hnext']
    exact h.tiles.push (piece_of_unused hslot) h.una_le one_pos
  · intro i hused
    by_cases hi : i = slot
    · subst hi
      right
      simpa using hfin
    · simp only [close_slots, Function.update_of_ne hi] at hused ⊢
      refine (h.entry i hused).imp (fun hd ↦ hd.of_eq rfl rfl le_rfl) fun hf ↦ ?_
      exact absurd hf.ownFin_eq (by simp [hopen])

/-! ## Cumulative acknowledgement -/

/-- A slot is reached by an acknowledgement exactly when it starts below it. -/
theorem Queue.before_iff (h : s.Queue) {i : Fin tcpSlots} {a : UInt32}
    (ha : distance s.isn a ≤ distance s.isn s.next) (hused : (s.slots i).used = true) :
    before (s.slots i).sequence a = true ↔
      distance s.isn (s.slots i).sequence < distance s.isn a := by
  have hslot := h.slot_le hused
  have hnext := h.next_lt
  exact before_iff_distance (by omega) (by omega)

/-- The number of sequence numbers of a slot that an acknowledgement reaches. -/
theorem toNat_consumed {x : Slot} {a : UInt32}
    (hbefore : distance s.isn x.sequence < distance s.isn a) :
    (a - x.sequence).toNat = distance s.isn a - distance s.isn x.sequence :=
  toNat_sub_of_le hbefore.le

theorem Queue.slot_acknowledge (h : s.Queue) {i : Fin tcpSlots} {a : UInt32}
    (ha : distance s.isn a ≤ distance s.isn s.next) (hused : (s.slots i).used = true) :
    (distance s.isn a ≤ distance s.isn (s.slots i).sequence ∧
        (s.slots i).acknowledge a = s.slots i) ∨
      (distance s.isn (s.slots i).sequence + (s.slots i).size.toNat ≤ distance s.isn a ∧
        (s.slots i).acknowledge a = { s.slots i with used := false }) ∨
      (distance s.isn (s.slots i).sequence < distance s.isn a ∧
        distance s.isn a < distance s.isn (s.slots i).sequence + (s.slots i).size.toNat ∧
        (s.slots i).acknowledge a = (s.slots i).trim a) := by
  have hbefore := h.before_iff ha hused
  have hslot := h.slot_le hused
  unfold Slot.acknowledge
  by_cases hreach : distance s.isn (s.slots i).sequence < distance s.isn a
  · have hconsumed := toNat_consumed hreach
    have hskip : (!(s.slots i).used || !before (s.slots i).sequence a) = false := by
      simp [hused, hbefore.mpr hreach]
    by_cases hwhole : a - (s.slots i).sequence ≥ (s.slots i).size
    · right
      left
      rw [ge_iff_le, UInt32.le_iff_toNat_le, hconsumed] at hwhole
      exact ⟨by omega, by simp [hskip, UInt32.le_iff_toNat_le, hconsumed, hwhole]⟩
    · right
      right
      rw [ge_iff_le, UInt32.le_iff_toNat_le, hconsumed] at hwhole
      exact ⟨hreach, by omega, by simp [hskip, UInt32.le_iff_toNat_le, hconsumed, hwhole]⟩
  · left
    have hskip : before (s.slots i).sequence a = false := by
      simpa using hbefore.not.mpr hreach
    exact ⟨by omega, by simp [hskip]⟩

/-- A slot cut in the middle holds data before and after. -/
theorem Queue.isData_trim (h : s.Queue) {i : Fin tcpSlots} {a : UInt32}
    (hused : (s.slots i).used = true)
    (hlow : distance s.isn (s.slots i).sequence < distance s.isn a)
    (hhigh : distance s.isn a < distance s.isn (s.slots i).sequence + (s.slots i).size.toNat) :
    s.IsData ((s.slots i).trim a) ∧ distance s.isn ((s.slots i).trim a).sequence = distance s.isn a ∧
      distance s.isn a + ((s.slots i).trim a).size.toNat =
        distance s.isn (s.slots i).sequence + (s.slots i).size.toNat := by
  have hconsumed := toNat_consumed hlow
  have hdata : s.IsData (s.slots i) := by
    refine (h.entry i hused).resolve_right fun hfin ↦ ?_
    rw [hfin.size_eq, UInt32.toNat_one] at hhigh
    omega
  have hsize := hdata.size_eq
  have hend := hdata.end_le
  have hmss := hdata.length_le
  have hbound : s.txOffset.toNat ≤ 16384 := h.offset_le.trans h.size_le
  have hstart := hdata.sequence_eq
  rw [hsize] at hhigh
  have hsequence : distance s.isn ((s.slots i).trim a).sequence = distance s.isn a := by
    rw [Slot.trim, distance_add_of_lt (by omega)]
    omega
  have hoffset : ((s.slots i).trim a).offset.toNat =
      (s.slots i).offset.toNat + (a - (s.slots i).sequence).toNat := by
    rw [Slot.trim, UInt32.toNat_add, Nat.mod_eq_of_lt (by omega)]
  have hlength : ((s.slots i).trim a).length.toNat =
      (s.slots i).length.toNat - (a - (s.slots i).sequence).toNat :=
    UInt32.toNat_sub_of_le _ _ (UInt32.le_iff_toNat_le.mpr (by omega))
  have htrim : s.IsData ((s.slots i).trim a) :=
    { flags_eq := hdata.flags_eq
      length_pos := by omega
      length_le := by omega
      sequence_eq := by omega
      end_le := by omega }
  exact ⟨htrim, hsequence, by rw [htrim.size_eq, hsize]; omega⟩

theorem Queue.piece_acknowledge (h : s.Queue) {a : UInt32}
    (ha : distance s.isn a ≤ distance s.isn s.next) (i : Fin tcpSlots) :
    (s.acknowledge a).piece i = (s.piece i).bind (trimPiece (distance s.isn a)) := by
  cases hused : (s.slots i).used with
  | false =>
    have hkept : ((s.acknowledge a).slots i).used = false := by
      simp [Slot.acknowledge, hused]
    rw [piece_of_unused hkept, piece_of_unused hused]
    rfl
  | true =>
    have hslot := h.slot_le hused
    rw [piece_of_used hused, Option.bind_some, trimPiece]
    rcases h.slot_acknowledge ha hused with
      ⟨hle, hkept⟩ | ⟨hle, hcleared⟩ | ⟨hlow, hhigh, htrimmed⟩
    · rw [if_neg (by simp only; omega), max_eq_left hle]
      simp only [piece, acknowledge_slots, acknowledge_isn, hkept, hused, if_true]
    · rw [if_pos hle]
      exact piece_of_unused (by rw [acknowledge_slots, hcleared])
    · obtain ⟨-, hsequence, hend⟩ := h.isData_trim hused hlow hhigh
      rw [if_neg (by simp only; omega), max_eq_right hlow.le]
      have hused' : ((s.slots i).trim a).used = true := hused
      simp only [piece, acknowledge_slots, acknowledge_isn, htrimmed, hused', if_true, hsequence,
        hend]

theorem Queue.toNat_ackedBytes (h : s.Queue) {a : UInt32}
    (ha : distance s.isn a ≤ distance s.isn s.next) (i : Fin tcpSlots) :
    ((s.slots i).ackedBytes a).toNat =
      below (min (distance s.isn a) (1 + s.txOffset.toNat)) (s.piece i) := by
  cases hused : (s.slots i).used with
  | false => simp [piece_of_unused hused, Slot.ackedBytes, hused, below]
  | true =>
    have hslot := h.slot_le hused
    have hbefore := h.before_iff ha hused
    rw [piece_of_used hused, below]
    unfold Slot.ackedBytes
    by_cases hreach : distance s.isn (s.slots i).sequence < distance s.isn a
    · have hconsumed := toNat_consumed hreach
      have hskip : (!(s.slots i).used || !before (s.slots i).sequence a) = false := by
        simp [hused, hbefore.mpr hreach]
      rw [hskip, if_neg Bool.false_ne_true]
      rcases h.entry i hused with hdata | hfin
      · have hend := hdata.end_le
        have hstart := hdata.sequence_eq
        rw [hdata.size_eq] at hslot ⊢
        split
        · rename_i hwhole
          rw [ge_iff_le, UInt32.le_iff_toNat_le, hconsumed] at hwhole
          simp only
          omega
        · rename_i hpart
          rw [ge_iff_le, UInt32.le_iff_toNat_le, hconsumed] at hpart
          simp only [hconsumed]
          omega
      · have hstart := hfin.sequence_eq
        have hclosed := congrArg UInt32.toNat (h.closed hfin.ownFin_eq)
        rw [hfin.size_eq] at hslot ⊢
        rw [if_pos (by rw [ge_iff_le, UInt32.le_iff_toNat_le, hconsumed, UInt32.toNat_one]; omega),
          hfin.length_eq]
        simp only [UInt32.toNat_zero, UInt32.toNat_one]
        omega
    · have hskip : before (s.slots i).sequence a = false := by
        simpa using hbefore.not.mpr hreach
      simp only [hskip, Bool.not_false, Bool.or_true, if_true, UInt32.toNat_zero]
      omega

/-- The bytes counted by a cumulative acknowledgement are the ones between `una` and it. -/
theorem Queue.toNat_sum_ackedBytes (h : s.Queue) {a : UInt32}
    (ha : distance s.isn a ≤ distance s.isn s.next) :
    (((List.finRange tcpSlots).map fun i ↦ (s.slots i).ackedBytes a).sum).toNat =
      min (distance s.isn a) (1 + s.txOffset.toNat) - distance s.isn s.una := by
  have hnext := h.next_eq
  have hbound : s.txOffset.toNat ≤ 16384 := h.offset_le.trans h.size_le
  have hsum : ∑ i, below (min (distance s.isn a) (1 + s.txOffset.toNat)) (s.piece i) =
      min (distance s.isn a) (1 + s.txOffset.toNat) - distance s.isn s.una :=
    h.tiles.sum_below (by omega)
  rw [Fin.sum_univ_def] at hsum
  rw [toNat_sum_map]
  simp only [h.toNat_ackedBytes ha, hsum]
  omega

/-- The FIN is covered by an acknowledgement of everything sent, and by no other. -/
theorem Queue.any_acksFin_iff (h : s.Queue) {a : UInt32}
    (hlow : distance s.isn s.una ≤ distance s.isn a)
    (ha : distance s.isn a ≤ distance s.isn s.next) :
    ((List.finRange tcpSlots).any fun i ↦ (s.slots i).acksFin a) = true ↔
      s.ownFin = true ∧ s.una ≠ s.next ∧ a = s.next := by
  have hnext := h.next_eq
  rw [List.any_eq_true]
  constructor
  · rintro ⟨i, -, hacks⟩
    simp only [Slot.acksFin, Bool.and_eq_true, decide_eq_true_eq] at hacks
    obtain ⟨⟨⟨hused, hbefore⟩, hwhole⟩, hflag⟩ := hacks
    rw [h.before_iff ha hused] at hbefore
    have hslot := h.slot_le hused
    rcases h.entry i hused with hdata | hfin
    · rw [hdata.not_fin] at hflag
      cases hflag
    · have hstart := hfin.sequence_eq
      have hclosed := congrArg UInt32.toNat (h.closed hfin.ownFin_eq)
      rw [hfin.ownFin_eq, Bool.toNat_true] at hnext
      have hend : distance s.isn a = distance s.isn s.next := by omega
      refine ⟨hfin.ownFin_eq, ?_, distance_inj.mp hend⟩
      intro heq
      rw [heq] at hslot
      omega
  · rintro ⟨hown, hopen, rfl⟩
    have hne : distance s.isn s.una ≠ distance s.isn s.next := fun heq ↦ hopen (distance_inj.mp heq)
    have hclosed := congrArg UInt32.toNat (h.closed hown)
    rw [hown, Bool.toNat_true] at hnext
    obtain ⟨i, ⟨piece, hpiece, hbelow, habove⟩, -⟩ :=
      h.tiles.exactlyOne (distance s.isn s.next - 1) (by omega) (by omega)
    have hused := used_of_piece hpiece
    have hslot := h.slot_le hused
    rw [piece_of_used hused, Option.some.injEq] at hpiece
    subst hpiece
    simp only at hbelow habove
    rcases h.entry i hused with hdata | hfin
    · have hstart := hdata.sequence_eq
      have hend := hdata.end_le
      rw [hdata.size_eq] at habove
      omega
    · have hbefore := h.before_iff ha hused
      have hsize : (s.slots i).size.toNat = 1 := by rw [hfin.size_eq, UInt32.toNat_one]
      have hreach : distance s.isn (s.slots i).sequence < distance s.isn s.next := by omega
      refine ⟨i, List.mem_finRange i, ?_⟩
      simp only [Slot.acksFin, hused, hbefore.mpr hreach, hfin.fin, UInt32.le_iff_toNat_le, ge_iff_le,
        toNat_consumed hreach, Bool.and_true, Bool.true_and, decide_eq_true_eq]
      omega

/-- The FIN is acknowledged when everything is. -/
theorem Queue.acknowledge_acked_iff (h : s.Queue) {a : UInt32} (hlow : distance s.isn s.una ≤ distance s.isn a)
    (ha : distance s.isn a ≤ distance s.isn s.next) :
    (s.acknowledge a).ownFinAcked = true ↔ s.ownFin = true ∧ a = s.next := by
  rw [acknowledge_ownFinAcked, Bool.or_eq_true, h.any_acksFin_iff hlow ha, h.acked_iff]
  constructor
  · rintro (⟨hown, heq⟩ | ⟨hown, -, heq⟩)
    · refine ⟨hown, distance_inj.mp (le_antisymm ha ?_)⟩
      rw [← heq]
      exact hlow
    · exact ⟨hown, heq⟩
  · rintro ⟨hown, heq⟩
    by_cases hidle : s.una = s.next
    · exact Or.inl ⟨hown, hidle⟩
    · exact Or.inr ⟨hown, hidle, heq⟩

theorem Queue.toNat_acknowledge_delivered (h : s.Queue) {a : UInt32}
    (ha : distance s.isn a ≤ distance s.isn s.next) :
    (s.acknowledge a).delivered.toNat = s.delivered.toNat +
      (min (distance s.isn a) (1 + s.txOffset.toNat) - distance s.isn s.una) := by
  have hnext := h.next_eq
  have huna := h.una_eq
  have hle := h.una_le
  have hlt := h.next_lt
  have hbound : s.txOffset.toNat ≤ 16384 := h.offset_le.trans h.size_le
  have hfin := Bool.toNat_le s.ownFinAcked
  rw [acknowledge_delivered, UInt32.toNat_add, h.toNat_sum_ackedBytes ha, Nat.mod_eq_of_lt (by omega)]

/-- A FIN that is outstanding has not been acknowledged. -/
theorem Queue.ownFinAcked_of_ne (h : s.Queue) (hidle : s.una ≠ s.next) : s.ownFinAcked = false := by
  rw [Bool.eq_false_iff]
  exact fun hacked ↦ hidle (h.acked_iff.mp hacked).2

/-- Delivery goes up to the acknowledged word. -/
theorem Queue.acknowledge_una_eq (h : s.Queue) {a : UInt32} (hlow : distance s.isn s.una ≤ distance s.isn a)
    (ha : distance s.isn a ≤ distance s.isn s.next) :
    distance s.isn a = 1 + (s.acknowledge a).delivered.toNat + (s.acknowledge a).ownFinAcked.toNat := by
  have hnext := h.next_eq
  have huna := h.una_eq
  have hacked := h.acknowledge_acked_iff hlow ha
  have hequal : ∀ w, w ≠ s.next → distance s.isn w ≠ distance s.isn s.next := fun w hw heq ↦
    hw (distance_inj.mp heq)
  rw [h.toNat_acknowledge_delivered ha]
  by_cases hall : s.ownFin = true ∧ a = s.next
  · obtain ⟨hown, heq⟩ := hall
    rw [hacked.mpr ⟨hown, heq⟩, heq, Bool.toNat_true]
    rw [hown, Bool.toNat_true] at hnext
    by_cases hidle : s.una = s.next
    · rw [h.acked_iff.mpr ⟨hown, hidle⟩, Bool.toNat_true] at huna
      rw [hidle] at huna ⊢
      omega
    · have hdifferent := hequal _ hidle
      rw [h.ownFinAcked_of_ne hidle, Bool.toNat_false] at huna
      omega
  · have hopen : (s.acknowledge a).ownFinAcked = false := by
      rw [Bool.eq_false_iff]
      exact fun hnow ↦ hall (hacked.mp hnow)
    have hbefore : s.ownFinAcked = false := by
      rw [acknowledge_ownFinAcked, Bool.or_eq_false_iff] at hopen
      exact hopen.1
    have hbelow : distance s.isn a ≤ 1 + s.txOffset.toNat := by
      cases hown : s.ownFin with
      | false =>
        rw [hown, Bool.toNat_false] at hnext
        omega
      | true =>
        have hdifferent := hequal a fun heq ↦ hall ⟨hown, heq⟩
        rw [hown, Bool.toNat_true] at hnext
        omega
    rw [hbefore, Bool.toNat_false] at huna
    rw [hopen, Bool.toNat_false]
    omega

/-- What an acknowledgement leaves in a slot belongs to the queue. -/
theorem Queue.acknowledge_entry (h : s.Queue) {a : UInt32} (ha : distance s.isn a ≤ distance s.isn s.next)
    (i : Fin tcpSlots) (hused' : ((s.acknowledge a).slots i).used = true) :
    (s.acknowledge a).IsData ((s.acknowledge a).slots i) ∨ (s.acknowledge a).IsFin ((s.acknowledge a).slots i) := by
  have hdata : ∀ x, s.IsData x → (s.acknowledge a).IsData x := fun x hx ↦ hx.of_eq rfl rfl le_rfl
  cases hused : (s.slots i).used with
  | false =>
    rw [acknowledge_slots, Slot.acknowledge, hused] at hused'
    simp [hused] at hused'
  | true =>
    rw [acknowledge_slots] at hused' ⊢
    rcases h.slot_acknowledge ha hused with ⟨-, hkept⟩ | ⟨-, hcleared⟩ | ⟨hstart, hend, htrimmed⟩
    · rw [hkept]
      exact (h.entry i hused).imp (hdata _) fun hf ↦ hf.of_eq rfl rfl rfl
    · rw [hcleared] at hused'
      cases hused'
    · rw [htrimmed]
      exact Or.inl (hdata _ (h.isData_trim hused hstart hend).1)

theorem Queue.acknowledge (h : s.Queue) {a : UInt32}
    (hlow : distance s.isn s.una ≤ distance s.isn a)
    (ha : distance s.isn a ≤ distance s.isn s.next) : (s.acknowledge a).Queue where
  size_le := h.size_le
  offset_le := h.offset_le
  mss_pos := h.mss_pos
  mss_le := h.mss_le
  next_eq := h.next_eq
  una_eq := h.acknowledge_una_eq hlow ha
  una_le := ha
  closed := h.closed
  acked_iff := h.acknowledge_acked_iff hlow ha
  tiles := by
    have hpieces : (s.acknowledge a).piece = fun i ↦ (s.piece i).bind (trimPiece (distance s.isn a)) :=
      funext (h.piece_acknowledge ha)
    rw [hpieces]
    exact h.tiles.trim hlow
  entry := h.acknowledge_entry ha

end Sender

end JordyOS.Transport
