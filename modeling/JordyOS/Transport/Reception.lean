import JordyOS.Transport.Outstanding
import JordyOS.Transport.ReceiveWindow

/-!
# The payload of a segment with an old acknowledgement

A segment that passes the window test and does not acknowledge too much is processed, except that
`tcp_input` drops it without notice when its acknowledgement number lies below `una`.
-/

namespace JordyOS.Transport

open Machine Net

variable {ρ : Type} (core : LarpCore ρ)

/-! ## Segments the receiving half has to notice -/

/-- Data or a FIN inside the receive window of an open connection, acknowledging nothing unsent. -/
structure InWindow (c : Tcp ρ) (b : Memory) (size : ℕ) : Prop where
  connected : c.state = .established ∨ c.state = .closing
  size_le : size ≤ 65535
  addressed : addressed c b size = true
  isAck : has (b 13) tcpAck = true
  noReset : has (b 13) tcpRst = false
  noSyn : has (b 13) tcpSyn = false
  occupies : (readSegment b size).length ≠ 0 ∨ has (b 13) tcpFin = true
  accepted : c.receiver.accepts (readSegment b size) = true
  ack_le : before c.next (netRead32 (b.shift 8)) = false

namespace Receiver

/-- The number of payload bytes in front of `receiveNext`. -/
def skipped (r : Receiver) (x : Segment) : ℕ := (r.receiveNext - x.sequence).toNat

/-- The segment starts at or before `receiveNext` and brings bytes behind it that fit into the file. -/
structure Brings (r : Receiver) (x : Segment) : Prop where
  unfinished : r.peerFin = false
  new : r.skipped x < x.length.toNat
  fits : r.rxSize.toNat + (x.length.toNat - r.skipped x) ≤ 16384

/-- The new bytes of a segment are behind the file, and `receiveNext` is behind the segment. -/
structure Appended (r s : Receiver) (x : Segment) : Prop where
  size : s.rxSize.toNat = r.rxSize.toNat + (x.length.toNat - r.skipped x)
  kept : ∀ i < r.rxSize.toNat, s.rx i = r.rx i
  stored : ∀ i < x.length.toNat - r.skipped x,
    s.rx (r.rxSize.toNat + i) = x.payload (r.skipped x + i)
  next : s.receiveNext = x.sequence + x.span

end Receiver

/-- The segment is noticed, and what it brings is stored. -/
def Processed (c d : Tcp ρ) (x : Segment) : Prop :=
  (d.state = .failed ∨ d.ackPending = true) ∧
    (c.receiver.Brings x → c.receiver.Appended d.receiver x)

/-! ## The size of the file -/

theorem Endpoint.Received.rxSize_le {v w : Endpoint} {x : Segment} (h : Endpoint.Received v x w)
    (hv : v.receiver.rxSize.toNat ≤ 16384) : w.receiver.rxSize.toNat ≤ 16384 := by
  cases h with
  | empty => exact hv
  | skip => exact hv
  | overflow _ _ _ h => exact h.receiver_eq ▸ hv
  | store _ _ hlength =>
    obtain ⟨hstore, hle⟩ := Receiver.toNat_store_rxSize hv hlength
    exact hstore ▸ hle

theorem Endpoint.Input.rxSize_le {v w : Endpoint} {x : Segment} (h : Endpoint.Input v x w)
    (hv : v.receiver.rxSize.toNat ≤ 16384) : w.receiver.rxSize.toNat ≤ 16384 := by
  cases h with
  | ignore => exact hv
  | refuse => exact hv
  | establish => exact hv
  | note => exact hv
  | reset => exact hv
  | stream _ hacked hreceived => exact hreceived.rxSize_le (hacked.receiver_eq ▸ hv)

theorem rxSize_le_run (calls : List Call) :
    (run (perform core) (zeroed core) calls).rxSize.toNat ≤ 16384 := by
  refine run_invariant (perform core) (fun c ↦ c.rxSize.toNat ≤ 16384) calls (Nat.zero_le _) ?_
  intro c call h
  cases call with
  | start =>
    change (tcpStart core _ _ _ _ _ _ _ _).rxSize.toNat ≤ 16384
    unfold tcpStart
    dsimp only
    split <;> exact Nat.zero_le _
  | event event =>
    cases event with
    | input b size now => exact (tcpInput_endpoint core c b size now).rxSize_le h
    | tick now =>
      have hreceiver : (tcpTick core c now).receiver = c.receiver :=
        (tcpTick_endpoint core c now).receiver_eq
      have hsize : (tcpTick core c now).rxSize = c.rxSize := congrArg Receiver.rxSize hreceiver
      exact hsize ▸ h

/-! ## One segment -/

section
variable {core} {c : Tcp ρ} {b : Memory} {size : ℕ}

/-- All checks but the last are passed. -/
theorem InWindow.tcpInput_eq (h : InWindow c b size) (now : UInt64) :
    tcpInput core c b size now =
      if before (netRead32 (b.shift 8)) c.una then c
      else acceptedInput core c b (headerLength b) (netRead32 (b.shift 4)) (netRead32 (b.shift 8))
        (b 13) (UInt32.ofNat (size - headerLength b)) now := by
  have hacceptable : acceptable c.receiveNext c.rxSize (netRead32 (b.shift 4))
    (UInt32.ofNat (size - headerLength b)) (b 13) = true := h.accepted
  have hlive : ¬ (c.state ≠ .established ∧ c.state ≠ .closing ∧ c.state ≠ .done) := fun hclosed ↦
    h.connected.elim hclosed.1 hclosed.2.1
  have hopen : c.state ≠ .synSent := by
    rcases h.connected with hstate | hstate <;> rw [hstate] <;> decide
  unfold tcpInput
  rw [h.addressed, if_neg (by decide)]
  dsimp only
  rw [if_neg hopen, if_neg hlive]
  unfold streamInput
  rw [h.noReset, h.noSyn, h.isAck, hacceptable, h.ack_le]
  rfl

end

namespace Receiver

variable {r : Receiver} {x : Segment}

/-- The bytes `receive` trims are the ones in front of `receiveNext`. -/
theorem Brings.overlap_eq (h : r.Brings x) (hlength : x.length.toNat ≤ 65535) :
    overlap r.receiveNext x.sequence x.length = r.receiveNext - x.sequence := by
  have hnew : (r.receiveNext - x.sequence).toNat < x.length.toNat := h.new
  apply UInt32.toNat_inj.mp
  unfold overlap
  split
  · rw [toNat_min32]
    omega
  · rename_i hbefore
    rw [before_iff] at hbefore
    have hfirst := r.receiveNext.toNat_lt
    have hsecond := x.sequence.toNat_lt
    rw [UInt32.toNat_sub] at hbefore hnew ⊢
    rw [UInt32.toNat_zero]
    omega

theorem Brings.trim_sequence (h : r.Brings x) (hlength : x.length.toNat ≤ 65535) :
    (x.trim r.receiveNext).sequence = r.receiveNext := by
  change x.sequence + overlap r.receiveNext x.sequence x.length = r.receiveNext
  rw [h.overlap_eq hlength, UInt32.add_comm, UInt32.sub_add_cancel]

theorem Brings.trim_length (h : r.Brings x) (hlength : x.length.toNat ≤ 65535) :
    (x.trim r.receiveNext).length.toNat = x.length.toNat - r.skipped x := by
  change (x.length - overlap r.receiveNext x.sequence x.length).toNat = _
  rw [h.overlap_eq hlength, UInt32.toNat_sub_of_le _ _ (UInt32.le_iff_toNat_le.mpr h.new.le)]
  rfl

theorem Brings.trim_end (h : r.Brings x) (hlength : x.length.toNat ≤ 65535) :
    r.receiveNext + (x.trim r.receiveNext).length = x.sequence + x.length := by
  change r.receiveNext + (x.length - overlap r.receiveNext x.sequence x.length) = _
  rw [h.overlap_eq hlength]
  apply UInt32.toNat_inj.mp
  simp only [UInt32.toNat_add, UInt32.toNat_sub]
  have hfirst := r.receiveNext.toNat_lt
  have hsecond := x.sequence.toNat_lt
  have hthird := x.length.toNat_lt
  omega

theorem Brings.appended_store (h : r.Brings x) (hlength : x.length.toNat ≤ 65535)
    (hsize : r.rxSize.toNat ≤ 16384)
    (hfits : (x.trim r.receiveNext).length ≤ tcpBuffer - r.rxSize) :
    r.Appended (r.store (x.trim r.receiveNext)) x := by
  have htrim := h.trim_length hlength
  have hpayload : (x.trim r.receiveNext).payload = x.payload.shift (r.skipped x) := by
    change x.payload.shift (overlap r.receiveNext x.sequence x.length).toNat = _
    rw [h.overlap_eq hlength]
    rfl
  constructor
  · rw [(toNat_store_rxSize hsize hfits).1, htrim]
  · exact fun i hi ↦ Memory.copy_below _ _ hi
  · intro i hi
    calc
      (r.store (x.trim r.receiveNext)).rx (r.rxSize.toNat + i) =
          (x.trim r.receiveNext).payload i := Memory.copy_inside _ _ (htrim ▸ hi)
      _ = x.payload (r.skipped x + i) := by rw [hpayload, Memory.shift_apply]
  · calc
      (r.store (x.trim r.receiveNext)).receiveNext =
          r.receiveNext + (x.trim r.receiveNext).length + (if has x.flags tcpFin then 1 else 0) := rfl
      _ = x.sequence + x.span := by
        rw [h.trim_end hlength, Segment.span, UInt32.add_assoc]

end Receiver

/-- Once `receive` looks at a segment, the segment is noticed and what it brings is stored. -/
theorem Endpoint.Received.processed {v w : Endpoint} {x : Segment} (h : Endpoint.Received v x w)
    (hlength : x.length.toNat ≤ 65535) (hsize : v.receiver.rxSize.toNat ≤ 16384)
    (hoccupies : x.length ≠ 0 ∨ has x.flags tcpFin = true) :
    (w.state = .failed ∨ w.ackPending = true) ∧
      (v.receiver.Brings x → v.receiver.Appended w.receiver x) := by
  cases h with
  | empty hempty hfin =>
    rcases hoccupies with hoccupies | hoccupies
    · exact absurd hempty hoccupies
    · exact absurd (hfin.symm.trans hoccupies) Bool.false_ne_true
  | skip hskip =>
    refine ⟨Or.inr rfl, fun hbrings ↦ ?_⟩
    rcases hskip with hskip | hskip
    · exact absurd (hbrings.unfinished.symm.trans hskip) Bool.false_ne_true
    · exact absurd (hbrings.trim_sequence hlength) hskip
  | overflow _ _ hlong h =>
    refine ⟨Or.inl h.state_eq, fun hbrings ↦ ?_⟩
    have hroom : (tcpBuffer - v.receiver.rxSize).toNat = 16384 - v.receiver.rxSize.toNat :=
      UInt32.toNat_sub_of_le _ _ (UInt32.le_iff_toNat_le.mpr hsize)
    have htrim := hbrings.trim_length hlength
    have hfits := hbrings.fits
    rw [gt_iff_lt, UInt32.lt_iff_toNat_lt] at hlong
    omega
  | store _ _ hfits => exact ⟨Or.inr rfl, fun hbrings ↦ hbrings.appended_store hlength hsize hfits⟩

section
variable {c : Tcp ρ} {b : Memory} {size : ℕ}

theorem InWindow.accepts (h : InWindow c b size) (hack : before (netRead32 (b.shift 8)) c.una = false) :
    c.endpoint.Accepts (readSegment b size) where
  live := h.connected.imp_right Or.inl
  noReset := h.noReset
  noSyn := h.noSyn
  isAck := h.isAck
  acceptable := h.accepted
  ack_le := h.ack_le
  le_ack := hack

/-- The acknowledgement of a segment with payload leaves the receiving half to the payload. -/
theorem InWindow.processed (h : InWindow c b size) (hsize : c.rxSize.toNat ≤ 16384)
    (hack : before (netRead32 (b.shift 8)) c.una = false) (now : UInt64) :
    Processed c (acceptedInput core c b (headerLength b) (netRead32 (b.shift 4))
      (netRead32 (b.shift 8)) (b 13) (UInt32.ofNat (size - headerLength b)) now) (readSegment b size) := by
  obtain ⟨w, hacked, hreceived⟩ := acceptedInput_stages core c b size now (h.accepts hack)
  have hlength : (readSegment b size).length.toNat ≤ 65535 := by
    have hle := h.size_le
    rw [readSegment, UInt32.toNat_ofNat', Nat.mod_eq_of_lt (by omega)]
    omega
  have hreceiver : w.receiver = c.receiver := hacked.receiver_eq
  have hprocessed := hreceived.processed hlength (by rw [hreceiver]; exact hsize) h.occupies
  rw [hreceiver] at hprocessed
  exact hprocessed

end

/-- A segment in the window of an open connection is processed exactly when its acknowledgement is
not below `una`, or nothing is asked: an acknowledgement is pending anyway and the segment brings
nothing. -/
theorem processed_iff (calls : List Call) (b : Memory) (size : ℕ) (now : UInt64)
    (h : InWindow (run (perform core) (zeroed core) calls) b size) :
    Processed (run (perform core) (zeroed core) calls)
        (tcpInput core (run (perform core) (zeroed core) calls) b size now) (readSegment b size) ↔
      before (netRead32 (b.shift 8)) (run (perform core) (zeroed core) calls).una = false ∨
        ((run (perform core) (zeroed core) calls).ackPending = true ∧
          ¬ (run (perform core) (zeroed core) calls).receiver.Brings (readSegment b size)) := by
  have hsize := rxSize_le_run core calls
  generalize run (perform core) (zeroed core) calls = c at h hsize ⊢
  rw [h.tcpInput_eq now]
  by_cases hack : before (netRead32 (b.shift 8)) c.una = true
  · have hopen : c.state ≠ .failed := by
      rcases h.connected with hstate | hstate <;> rw [hstate] <;> decide
    rw [if_pos hack]
    constructor
    · rintro ⟨hnoticed, hstored⟩
      refine Or.inr ⟨hnoticed.resolve_left hopen, fun hbrings ↦ ?_⟩
      have hgrown := (hstored hbrings).size
      have hnew := hbrings.new
      omega
    · rintro (hnew | ⟨hpending, hnothing⟩)
      · exact absurd (hnew.symm.trans hack) Bool.false_ne_true
      · exact ⟨Or.inr hpending, fun hbrings ↦ absurd hbrings hnothing⟩
  · have hnew : before (netRead32 (b.shift 8)) c.una = false := Bool.eq_false_iff.mpr hack
    rw [if_neg hack]
    exact iff_of_true (h.processed core hsize hnew now) (Or.inl hnew)

/-! ## A delayed segment -/

/-- Two bytes are sent and acknowledged. -/
def acknowledged : List Call :=
  oneSegment ++ [.event (.input (peerSegment 501 103 tcpAck 4096 []) 20 3000)]

/-- Three bytes sent by the peer before it saw the two bytes, which its next segment acknowledged. -/
def delayed : Memory := peerSegment 501 101 (tcpAck ||| tcpPsh) 4096 [1, 2, 3]

theorem inWindow_delayed :
    InWindow (run (perform steadyCore) (zeroed steadyCore) acknowledged) delayed 23 where
  connected := Or.inl rfl
  size_le := by decide
  addressed := rfl
  isAck := rfl
  noReset := rfl
  noSyn := rfl
  occupies := Or.inl (by decide)
  accepted := rfl
  ack_le := rfl

theorem processed_iff_delayed :
    Processed (run (perform steadyCore) (zeroed steadyCore) acknowledged)
        (tcpInput steadyCore (run (perform steadyCore) (zeroed steadyCore) acknowledged) delayed 23 4000)
        (readSegment delayed 23) ↔
      before (netRead32 (delayed.shift 8))
          (run (perform steadyCore) (zeroed steadyCore) acknowledged).una = false ∨
        ((run (perform steadyCore) (zeroed steadyCore) acknowledged).ackPending = true ∧
          ¬ (run (perform steadyCore) (zeroed steadyCore) acknowledged).receiver.Brings
            (readSegment delayed 23)) :=
  processed_iff steadyCore acknowledged delayed 23 4000 inWindow_delayed

/-- The delayed segment is dropped: no acknowledgement is pending and nothing was stored. -/
theorem not_processed_delayed :
    InWindow (run (perform steadyCore) (zeroed steadyCore) acknowledged) delayed 23 ∧
      ¬ Processed (run (perform steadyCore) (zeroed steadyCore) acknowledged)
        (tcpInput steadyCore (run (perform steadyCore) (zeroed steadyCore) acknowledged) delayed 23 4000)
        (readSegment delayed 23) := by
  refine ⟨inWindow_delayed, fun hprocessed ↦ ?_⟩
  have hpending : (tcpInput steadyCore (run (perform steadyCore) (zeroed steadyCore) acknowledged)
      delayed 23 4000).ackPending = false := rfl
  have hstate : (tcpInput steadyCore (run (perform steadyCore) (zeroed steadyCore) acknowledged)
      delayed 23 4000).state = .established := rfl
  rcases hprocessed.1 with hfailed | hnoticed
  · rw [hstate] at hfailed
    cases hfailed
  · rw [hpending] at hnoticed
    cases hnoticed

end JordyOS.Transport
