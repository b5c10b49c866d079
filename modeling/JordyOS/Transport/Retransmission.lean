import JordyOS.Transport.Finality
import JordyOS.Transport.Timeline

/-!
# The retransmission timer

One timer serves all segments of the queue.  It is restarted when the first segment enters the empty
queue, when an acknowledgement makes progress and when a segment is sent again, so it is never behind
the last transmission of the segment at `una`.  The history of every sequence number agrees with the
retry count of the slot that holds it.
-/

namespace JordyOS.Transport

open Machine Net

variable {ρ : Type} {core : LarpCore ρ}

/-! ## The sequence numbers of a segment -/

/-- The number of sequence numbers a segment takes. -/
def Emission.span (e : Emission) : ℕ :=
  e.length + (if has e.flags (tcpSyn ||| tcpFin) then 1 else 0)

/-- The transmission carries sequence number `q`. -/
def Transmission.covers (q : UInt32) (x : Transmission) : Bool :=
  decide (distance x.segment.sequence q < x.segment.span)

/-- The segment holds sequence number `q`. -/
def TcpSegment.Holds (q : UInt32) (s : TcpSegment) : Prop :=
  distance s.sequence q < (sequenceSize s).toNat

/-- The size of a segment does not wrap. -/
def TcpSegment.Sized (s : TcpSegment) : Prop :=
  (sequenceSize s).toNat = s.length.toNat + (if has s.flags (tcpSyn ||| tcpFin) then 1 else 0)

theorem TcpSegment.sized_of_le {s : TcpSegment} (h : s.length.toNat ≤ 65535) : s.Sized := by
  unfold Sized sequenceSize
  split
  · rw [UInt32.toNat_add, UInt32.toNat_one, Nat.mod_eq_of_lt (by omega)]
  · rw [UInt32.add_zero, Nat.add_zero]

theorem Emission.Transmits.covers_iff {e : Emission} {s : TcpSegment} (h : e.Transmits s)
    (hs : s.Sized) {time rate : UInt64} {q : UInt32} :
    (⟨time, rate, e⟩ : Transmission).covers q = true ↔ s.Holds q := by
  have hspan : e.span = (sequenceSize s).toNat := by
    rw [Emission.span, h.length_eq, h.flags_eq, hs]
  rw [Transmission.covers, decide_eq_true_eq, TcpSegment.Holds, h.sequence_eq, hspan]

/-- A segment that an acknowledgement leaves in the queue keeps its retry count and its time. -/
theorem TcpSegment.acknowledge_used {a : UInt32} {s : TcpSegment}
    (h : (s.acknowledge a).used = true) :
    s.used = true ∧ (s.acknowledge a).retries = s.retries ∧
      (s.acknowledge a).sentUs = s.sentUs := by
  unfold acknowledge at h ⊢
  split
  · rename_i hskip
    rw [if_pos hskip] at h
    exact ⟨h, rfl, rfl⟩
  rename_i hreached
  rw [if_neg hreached] at h
  split
  · rename_i hwhole
    rw [if_pos hwhole] at h
    cases h
  · rename_i hpart
    rw [if_neg hpart] at h
    exact ⟨h, rfl, rfl⟩

/-- What remains of a segment after an acknowledgement was part of it before. -/
theorem TcpSegment.Holds.of_acknowledge {a q : UInt32} {s : TcpSegment} (hs : s.Sized)
    (h : (s.acknowledge a).Holds q) (hused : (s.acknowledge a).used = true) : s.Holds q := by
  unfold acknowledge at h hused
  split at h
  · exact h
  rename_i hreached
  rw [if_neg hreached] at hused
  split at h
  · rename_i hwhole
    rw [if_pos hwhole] at hused
    cases hused
  rename_i hpart
  have hplace : s.sequence + (a - s.sequence) = a := by
    rw [UInt32.add_comm, UInt32.sub_add_cancel]
  have hconsumed : (a - s.sequence).toNat < (sequenceSize s).toNat := by
    rw [ge_iff_le, UInt32.le_iff_toNat_le] at hpart
    omega
  have hrest : distance a q < (s.length - (a - s.sequence) +
      (if has s.flags (tcpSyn ||| tcpFin) then 1 else 0)).toNat := by
    unfold Holds at h
    dsimp only at h
    rw [hplace] at h
    exact h
  have hq : distance s.sequence q = ((a - s.sequence).toNat + distance a q) % 2 ^ 32 := by
    have hword : q = a + (q - a) := by rw [UInt32.add_comm, UInt32.sub_add_cancel]
    calc
      distance s.sequence q = distance s.sequence (a + (q - a)) := by rw [← hword]
      _ = ((a - s.sequence).toNat + distance a q) % 2 ^ 32 := distance_add _ _ _
  have hlength := s.length.toNat_lt
  unfold Holds
  rw [hs] at hconsumed ⊢
  split at hconsumed
  · rename_i hflag
    rw [if_pos hflag] at hrest ⊢
    rw [UInt32.toNat_add, UInt32.toNat_sub_of_le _ _ (UInt32.le_iff_toNat_le.mpr (by omega)),
      UInt32.toNat_one] at hrest
    omega
  · rename_i hflag
    rw [if_neg hflag] at hrest ⊢
    rw [UInt32.add_zero, UInt32.toNat_sub_of_le _ _ (UInt32.le_iff_toNat_le.mpr (by omega))] at hrest
    omega

/-! ## The layout of the queue -/

/-- Measured from `isn`, the segments in use lie between `una` and `next` and do not overlap. -/
structure Laid (c : Tcp ρ) : Prop where
  next_lt : distance c.isn c.next < 2 ^ 31
  sized : ∀ i, (c.pending i).used = true → (c.pending i).Sized
  within : ∀ i, (c.pending i).used = true →
    distance c.isn c.una ≤ distance c.isn (c.pending i).sequence ∧
      0 < (sequenceSize (c.pending i)).toNat ∧
      distance c.isn (c.pending i).sequence + (sequenceSize (c.pending i)).toNat ≤
        distance c.isn c.next
  apart : ∀ i j q, (c.pending i).used = true → (c.pending j).used = true →
    (c.pending i).Holds q → (c.pending j).Holds q → i = j

theorem Sender.Queue.laid {c : Tcp ρ} (h : c.sender.Queue) : Laid c := by
  have hnext : distance c.isn c.next < 2 ^ 31 := h.next_lt
  have hwithin : ∀ i, (c.pending i).used = true →
      distance c.isn c.una ≤ distance c.isn (c.pending i).sequence ∧
        0 < (sequenceSize (c.pending i)).toNat ∧
        distance c.isn (c.pending i).sequence + (sequenceSize (c.pending i)).toNat ≤
          distance c.isn c.next := fun i hused ↦ h.slot_le hused
  refine ⟨hnext, ?_, hwithin, ?_⟩
  · intro i hused
    refine TcpSegment.sized_of_le ?_
    have hmss := c.mss.toNat_lt
    rcases h.entry i hused with hdata | hfin
    · have hle : (c.pending i).length.toNat ≤ c.mss.toNat := hdata.length_le
      omega
    · have hzero : (c.pending i).length = 0 := hfin.length_eq
      rw [hzero, UInt32.toNat_zero]
      exact Nat.zero_le _
  · intro i j q hi hj hiq hjq
    have hplace : ∀ k, (c.pending k).used = true → (c.pending k).Holds q →
        Covers c.sender.piece k (distance c.isn q) := by
      intro k hk hkq
      have hslot := hwithin k hk
      have hrange : distance c.isn (c.pending k).sequence + (sequenceSize (c.pending k)).toNat ≤ 2 ^ 32 := by
        omega
      exact ⟨_, Sender.piece_of_used hk, (distance_lt_iff hrange).mp hkq⟩
    exact h.tiles.eq_of_covers (hplace i hi hiq) (hplace j hj hjq)

theorem Sender.Opening.laid {c : Tcp ρ} (h : c.sender.Opening) : Laid c := by
  have hnext : distance c.isn c.next = 0 ∨ distance c.isn c.next = 1 := by
    rcases h.next_eq with hnext | hnext
    · have hword : c.next = c.isn := hnext
      exact Or.inl (by rw [hword, distance_self])
    · have hword : c.next = c.isn + 1 := hnext
      exact Or.inr (by rw [hword, distance_add_left, UInt32.toNat_one])
  have hsyn : ∀ i, (c.pending i).used = true → i = 0 ∧ (c.pending i).sequence = c.isn ∧
      sequenceSize (c.pending i) = 1 ∧ (c.pending i).length = 0 ∧ c.next = c.isn + 1 := by
    intro i hused
    obtain ⟨hzero, hslot, hsent⟩ := h.syn i hused
    have hflags : (c.pending i).flags = tcpSyn := congrArg Slot.flags hslot
    have hlength : (c.pending i).length = 0 := congrArg Slot.length hslot
    have hone : has tcpSyn (tcpSyn ||| tcpFin) = true := by decide
    refine ⟨hzero, congrArg Slot.sequence hslot, ?_, hlength, hsent⟩
    rw [sequenceSize, hlength, hflags, hone]
    rfl
  refine ⟨by omega, ?_, ?_, ?_⟩
  · intro i hused
    refine TcpSegment.sized_of_le ?_
    rw [(hsyn i hused).2.2.2.1, UInt32.toNat_zero]
    exact Nat.zero_le _
  · intro i hused
    obtain ⟨-, hsequence, hsize, -, hsent⟩ := hsyn i hused
    have huna : c.una = c.isn := h.una_eq
    rw [hsequence, hsize, huna, hsent, distance_self, distance_add_left, UInt32.toNat_one]
    omega
  · intro i j q hi hj _ _
    rw [(hsyn i hi).1, (hsyn j hj).1]

theorem laid_of_sound {c : Tcp ρ} (h : c.endpoint.Sound)
    (hstate : c.state = .synSent ∨ c.endpoint.Live) : Laid c :=
  hstate.elim (fun hsyn ↦ (h.opening hsyn).laid) fun hlive ↦ (h.queue hlive).laid

/-! ## The history of a sequence number -/

/-- `q` has been transmitted `count` times, the last time at `time`. -/
def Times (sent : List Transmission) (q : UInt32) (count : ℕ) (time : UInt64) : Prop :=
  ∃ earlier last, sent.filter (Transmission.covers q) = earlier ++ [last] ∧
    earlier.length + 1 = count ∧ last.time = time

/-- The transmissions so far agree with the queue: what lies behind `next` was never sent, and a slot
knows how often its segment was sent and when it was sent last. -/
structure History (isn : UInt32) (sent : List Transmission) (m : Timing) : Prop where
  most : ∀ q, (sent.filter (Transmission.covers q)).length ≤ 9
  unsent : ∀ q, distance isn m.next ≤ distance isn q → sent.filter (Transmission.covers q) = []
  retries_le : ∀ i, (m.pending i).used = true → (m.pending i).retries.toNat ≤ 8
  queued : ∀ i, (m.pending i).used = true → ∀ q, (m.pending i).Holds q →
    Times sent q ((m.pending i).retries.toNat + 1) (m.pending i).sentUs

section
variable {c : Tcp ρ} {sent : List Transmission} {now : UInt64} {s : TcpSegment} {e : Emission}

/-- A transmission counts for the sequence numbers it carries and for no other. -/
theorem filter_covers_append (sent : List Transmission) (he : e.Transmits s) (hs : s.Sized)
    (now rate : UInt64) (q : UInt32) :
    (s.Holds q ∧ (sent ++ [(⟨now, rate, e⟩ : Transmission)]).filter (Transmission.covers q) =
        sent.filter (Transmission.covers q) ++ [⟨now, rate, e⟩]) ∨
      (¬ s.Holds q ∧ (sent ++ [(⟨now, rate, e⟩ : Transmission)]).filter (Transmission.covers q) =
        sent.filter (Transmission.covers q)) := by
  have hiff : (⟨now, rate, e⟩ : Transmission).covers q = true ↔ s.Holds q := he.covers_iff hs
  rw [List.filter_append]
  by_cases hq : s.Holds q
  · left
    rw [List.filter_cons_of_pos (hiff.mpr hq), List.filter_nil]
    exact ⟨hq, rfl⟩
  · right
    rw [List.filter_cons_of_neg (hiff.not.mpr hq), List.filter_nil, List.append_nil]
    exact ⟨hq, rfl⟩

theorem Laid.holds_iff (h : Laid c) {i : Fin tcpSlots} (hused : (c.pending i).used = true)
    (q : UInt32) : (c.pending i).Holds q ↔
      distance c.isn (c.pending i).sequence ≤ distance c.isn q ∧
        distance c.isn q < distance c.isn (c.pending i).sequence +
          (sequenceSize (c.pending i)).toNat := by
  have hwithin := h.within i hused
  have hnext := h.next_lt
  exact distance_lt_iff (by omega)

theorem Times.again {q : UInt32} {count : ℕ} {time : UInt64} {x : Transmission}
    (h : Times sent q count time) (hx : (sent ++ [x]).filter (Transmission.covers q) =
      sent.filter (Transmission.covers q) ++ [x]) :
    Times (sent ++ [x]) q (count + 1) x.time := by
  obtain ⟨earlier, last, hfilter, hcount, -⟩ := h
  refine ⟨earlier ++ [last], x, by rw [hx, hfilter], ?_, rfl⟩
  rw [List.length_append, List.length_singleton, hcount]

theorem Times.length_eq {q : UInt32} {count : ℕ} {time : UInt64} (h : Times sent q count time) :
    (sent.filter (Transmission.covers q)).length = count := by
  obtain ⟨earlier, last, hfilter, hcount, -⟩ := h
  rw [hfilter, List.length_append, List.length_singleton, hcount]

/-- The oldest segment is sent again. -/
theorem History.resend (h : History c.isn sent c.timing) (hc : Laid c) {i : Fin tcpSlots}
    (hused : (c.pending i).used = true) (hretries : (c.pending i).retries < 8)
    (he : e.Transmits (c.pending i)) (timeout : Bool) (rate : UInt64) :
    History c.isn (sent ++ [⟨now, c.timing.rate, e⟩]) (c.timing.resend core i now timeout rate) := by
  have hsplit := filter_covers_append sent he (hc.sized i hused) now c.timing.rate
  have hcount : (c.pending i).retries.toNat < 8 := UInt8.lt_iff_toNat_lt.mp hretries
  have hsucc : ((c.pending i).resentAt now).retries.toNat = (c.pending i).retries.toNat + 1 := by
    change ((c.pending i).retries + 1).toNat = _
    rw [UInt8.toNat_add, UInt8.toNat_one, Nat.mod_eq_of_lt (by omega)]
  refine ⟨?_, ?_, ?_, ?_⟩
  · intro q
    rcases hsplit q with ⟨hq, hfilter⟩ | ⟨-, hfilter⟩
    · rw [hfilter, List.length_append, List.length_singleton, (h.queued i hused q hq).length_eq]
      change (c.pending i).retries.toNat + 1 + 1 ≤ 9
      omega
    · rw [hfilter]
      exact h.most q
  · intro q hq
    have hbehind : distance c.isn c.next ≤ distance c.isn q := hq
    rcases hsplit q with ⟨hholds, -⟩ | ⟨-, hfilter⟩
    · have hwithin := hc.within i hused
      have hplace := (hc.holds_iff hused q).mp hholds
      omega
    · rw [hfilter]
      exact h.unsent q hq
  · intro j hj
    change (Function.update c.pending i _ j).used = true at hj
    change (Function.update c.pending i ((c.pending i).resentAt now) j).retries.toNat ≤ 8
    by_cases hij : j = i
    · subst hij
      rw [Function.update_self, hsucc]
      omega
    · rw [Function.update_of_ne hij] at hj ⊢
      exact h.retries_le j hj
  · intro j hj q hq
    change (Function.update c.pending i _ j).used = true at hj
    change (Function.update c.pending i _ j).Holds q at hq
    change Times _ q ((Function.update c.pending i ((c.pending i).resentAt now) j).retries.toNat + 1)
      (Function.update c.pending i ((c.pending i).resentAt now) j).sentUs
    by_cases hij : j = i
    · subst hij
      rw [Function.update_self] at hq ⊢
      rcases hsplit q with ⟨hholds, hfilter⟩ | ⟨hnot, -⟩
      · rw [hsucc]
        exact (h.queued j hused q hholds).again hfilter
      · exact absurd hq hnot
    · rw [Function.update_of_ne hij] at hj hq ⊢
      rcases hsplit q with ⟨hholds, -⟩ | ⟨-, hfilter⟩
      · exact absurd (hc.apart j i q hj hused hq hholds) hij
      · unfold Times
        rw [hfilter]
        exact h.queued j hj q hq

theorem Laid.una_ne_next (h : Laid c) {i : Fin tcpSlots} (hused : (c.pending i).used = true) :
    c.una ≠ c.next := by
  have hwithin := h.within i hused
  intro heq
  rw [heq] at hwithin
  omega

theorem TcpSegment.size_le (h : s.length.toNat ≤ 65535) : (sequenceSize s).toNat ≤ 65536 := by
  rw [TcpSegment.sized_of_le h]
  split <;> omega

/-- The place of a segment that starts at `next`. -/
theorem Laid.behind (h : Laid c) (hsequence : s.sequence = c.next) (hlength : s.length.toNat ≤ 65535)
    {q : UInt32} (hq : s.Holds q) : distance c.isn c.next ≤ distance c.isn q ∧
      distance c.isn q < distance c.isn c.next + (sequenceSize s).toNat := by
  have hnext := h.next_lt
  have hsize := TcpSegment.size_le hlength
  unfold TcpSegment.Holds at hq
  rw [hsequence] at hq
  exact (distance_lt_iff (by omega)).mp hq

/-- A segment that starts at `next` holds nothing of the queue. -/
theorem Laid.fresh (h : Laid c) (hsequence : s.sequence = c.next) (hlength : s.length.toNat ≤ 65535)
    {i : Fin tcpSlots} (hused : (c.pending i).used = true) {q : UInt32} (hq : (c.pending i).Holds q) :
    ¬ s.Holds q := by
  have hwithin := h.within i hused
  have hbefore := (h.holds_iff hused q).mp hq
  intro hnew
  have hbehind := h.behind hsequence hlength hnew
  omega

/-- A segment behind `next` joins the queue. -/
theorem History.append (h : History c.isn sent c.timing) (hc : Laid c) {slot : Fin tcpSlots}
    (hsequence : s.sequence = c.next) (hretries : s.retries = 0) (hlength : s.length.toNat ≤ 65535)
    (he : e.Transmits s) (idle : Bool) (deliveredUs flightUs : UInt64) :
    History c.isn (sent ++ [⟨now, c.timing.rate, e⟩])
      (c.timing.append core slot s now idle deliveredUs flightUs) := by
  have hsized := TcpSegment.sized_of_le hlength
  have hsplit := filter_covers_append sent he hsized now c.timing.rate
  have hnext := hc.next_lt
  have hsize := TcpSegment.size_le hlength
  have hend : distance c.isn (c.next + sequenceSize s) =
      distance c.isn c.next + (sequenceSize s).toNat := by
    rw [distance_add, Nat.mod_eq_of_lt (by omega)]
  have hslot : ∀ j, (Function.update c.pending slot (s.sentAt now) j).used = true → j ≠ slot →
      (c.pending j).used = true := by
    intro j hj hne
    rw [Function.update_of_ne hne] at hj
    exact hj
  refine ⟨?_, ?_, ?_, ?_⟩
  · intro q
    rcases hsplit q with ⟨hq, hfilter⟩ | ⟨-, hfilter⟩
    · rw [hfilter, h.unsent q (hc.behind hsequence hlength hq).1, List.nil_append, List.length_singleton]
      decide
    · rw [hfilter]
      exact h.most q
  · intro q hq
    have hbehind : distance c.isn (c.next + sequenceSize s) ≤ distance c.isn q := hq
    rw [hend] at hbehind
    rcases hsplit q with ⟨hholds, -⟩ | ⟨-, hfilter⟩
    · have hlt := (hc.behind hsequence hlength hholds).2
      omega
    · rw [hfilter]
      exact h.unsent q ((Nat.le_add_right _ _).trans hbehind)
  · intro j hj
    change (Function.update c.pending slot (s.sentAt now) j).used = true at hj
    change (Function.update c.pending slot (s.sentAt now) j).retries.toNat ≤ 8
    by_cases hne : j = slot
    · subst hne
      rw [Function.update_self]
      change s.retries.toNat ≤ 8
      rw [hretries]
      decide
    · have hused := hslot j hj hne
      rw [Function.update_of_ne hne]
      exact h.retries_le j hused
  · intro j hj q hq
    change (Function.update c.pending slot (s.sentAt now) j).used = true at hj
    change (Function.update c.pending slot (s.sentAt now) j).Holds q at hq
    change Times _ q ((Function.update c.pending slot (s.sentAt now) j).retries.toNat + 1)
      (Function.update c.pending slot (s.sentAt now) j).sentUs
    by_cases hne : j = slot
    · subst hne
      rw [Function.update_self] at hq ⊢
      have hholds : s.Holds q := hq
      rcases hsplit q with ⟨-, hfilter⟩ | ⟨hnot, -⟩
      · refine ⟨[], ⟨now, c.timing.rate, e⟩, ?_, ?_, rfl⟩
        · rw [hfilter, h.unsent q (hc.behind hsequence hlength hholds).1]
        · change 0 + 1 = s.retries.toNat + 1
          rw [hretries]
          rfl
      · exact absurd hholds hnot
    · have hused := hslot j hj hne
      rw [Function.update_of_ne hne] at hq ⊢
      rcases hsplit q with ⟨hholds, -⟩ | ⟨-, hfilter⟩
      · exact absurd hholds (hc.fresh hsequence hlength hused hq)
      · unfold Times
        rw [hfilter]
        exact h.queued j hused q hq

/-- Segments may leave the queue or become shorter. -/
theorem History.shrink {isn : UInt32} {m n : Timing} (h : History isn sent m) (hnext : n.next = m.next)
    (hslot : ∀ i, (n.pending i).used = true → (m.pending i).used = true ∧
      (n.pending i).retries = (m.pending i).retries ∧ (n.pending i).sentUs = (m.pending i).sentUs ∧
      ∀ q, (n.pending i).Holds q → (m.pending i).Holds q) :
    History isn sent n := by
  refine ⟨h.most, hnext ▸ h.unsent, ?_, ?_⟩
  · intro i hi
    obtain ⟨hused, hretries, -, -⟩ := hslot i hi
    rw [hretries]
    exact h.retries_le i hused
  · intro i hi q hq
    obtain ⟨hused, hretries, hsent, hholds⟩ := hslot i hi
    rw [hretries, hsent]
    exact h.queued i hused q (hholds q hq)

theorem History.acknowledge (h : History c.isn sent c.timing) (hc : Laid c) (a : UInt32)
    (estimate : Estimate) (rate : UInt64) :
    History c.isn sent (c.timing.acknowledge a now estimate rate) := by
  refine h.shrink rfl ?_
  intro i hi
  obtain ⟨hused, hretries, hsent⟩ := TcpSegment.acknowledge_used hi
  exact ⟨hused, hretries, hsent, fun q hq ↦ hq.of_acknowledge (hc.sized i hused) hi⟩

theorem History.establish (h : History c.isn sent c.timing) (estimate : Estimate) :
    History c.isn sent (c.timing.establish now estimate) := by
  refine h.shrink rfl ?_
  intro i hi
  change (Function.update c.pending 0 { c.pending 0 with used := false } i).used = true at hi
  have hsame : (c.timing.establish now estimate).pending i = c.pending i := by
    by_cases hzero : i = 0
    · subst hzero
      rw [Function.update_self] at hi
      cases hi
    · exact Function.update_of_ne hzero _ _
  rw [hsame]
  change Function.update c.pending 0 { c.pending 0 with used := false } i = c.pending i at hsame
  rw [hsame] at hi
  exact ⟨hi, rfl, rfl, fun _ hq ↦ hq⟩

theorem History.turn (h : History c.isn sent c.timing) (hc : Laid c) {n : Timing}
    {new : List Emission} (hturn : Turn core c.timing now n new) :
    History c.isn (sent ++ new.map fun e ↦ ⟨now, c.timing.rate, e⟩) n := by
  cases hturn with
  | keep => exact (List.append_nil sent).symm ▸ h
  | idle =>
    rw [List.map_nil, List.append_nil]
    exact ⟨h.most, h.unsent, h.retries_le, h.queued⟩
  | resend i timeout rate e hused hfirst hretries hdue hgate hrate he =>
    exact h.resend hc hused hretries he timeout rate
  | acknowledge a estimate rate =>
    rw [List.map_nil, List.append_nil]
    exact h.acknowledge hc a estimate rate
  | establish estimate =>
    rw [List.map_nil, List.append_nil]
    exact h.establish estimate
  | append slot s idle deliveredUs flightUs e hunused hused hsequence hretries hlength hdelivered
      hflight hstamps hidle hgate he =>
    exact h.append hc hsequence hretries hlength he idle deliveredUs flightUs

/-! ## A tick before the timeout -/

theorem sendNext_pending (core : LarpCore ρ) (c : Tcp ρ) (now : UInt64) {j : Fin tcpSlots}
    (hused : (c.pending j).used = true) : (sendNext core c now).pending j = c.pending j := by
  unfold sendNext
  split
  · rfl
  split
  · rfl
  split
  · rfl
  rename_i slot hslot
  have hne : j ≠ slot := by
    rintro rfl
    rw [freeSlot_unused hslot] at hused
    cases hused
  unfold sendSegment
  simp only
  split
  · rfl
  generalize ({ nextSegment (startFlight c now) with
    flags := if (nextSegment (startFlight c now)).length = 0 then tcpAck ||| tcpFin
      else (nextSegment (startFlight c now)).flags } : TcpSegment) = s
  have hsame := transmit_pending core (startFlight c now) s now
  split
  · exact (Function.update_of_ne hne _ _).trans (congrFun hsame j)
  · exact congrFun hsame j

/-- A tick touches a segment in the queue only when the timer is due. -/
theorem tcpTick_pending (hsound : c.endpoint.Sound) (hdue : timerDue (acknowledge c) now = false)
    {j : Fin tcpSlots} (hused : (c.pending j).used = true) :
    (tcpTick core c now).pending j = c.pending j := by
  have hsame : (acknowledge c).pending = c.pending := congrArg Timing.pending (acknowledge_silent c).1
  have hsound' : (acknowledge c).endpoint.Sound :=
    hsound.of_frame (acknowledge_endpoint c).sender_eq (Or.inl (acknowledge_endpoint c).state_eq)
  rw [← hsame] at hused ⊢
  unfold tcpTick
  split
  · rw [hsame]
  split
  · rw [hsame]
    exact congrFun (congrArg Timing.pending (tcpAbort_silent c "120-second transfer deadline").1) j
  simp only
  split
  · rfl
  split
  · rename_i hlate
    rw [hdue] at hlate
    cases hlate
  split
  · rename_i hsyn
    have hnext : (acknowledge c).next = (acknowledge c).isn + 1 :=
      ((hsound'.opening hsyn).syn j hused).2.2
    unfold sendSyn
    rw [if_pos]
    rw [hnext]
    exact fun hzero ↦ absurd (UInt32.left_eq_add.mp hzero.symm) (by decide)
  split
  · rfl
  split
  · exact congrFun (congrArg Timing.pending (probe_silent (acknowledge c) now).1) j
  · exact sendNext_pending core (acknowledge c) now hused

/-! ## The timer -/

/-- The timer is not behind anything that was done for the segment at `una`: a transmission of one of
its sequence numbers, or the advance of `una` itself. -/
structure Timed (advances : List UInt64) (sent : List Transmission) (m : Timing) : Prop where
  sent_le : ∀ i, (m.pending i).used = true → (m.pending i).sequence = m.una → ∀ q,
    (m.pending i).Holds q → ∀ x ∈ sent, x.covers q = true → x.time ≤ m.timerUs
  advance_le : m.una ≠ m.next → ∀ t ∈ advances, t ≤ m.timerUs

/-- What a turn at time `now` may do about the timer: restart it, empty the queue, or leave the timer
and the segment at `una` alone. -/
theorem Turn.timer {n : Timing} {new : List Emission} (hc : Laid c)
    (hturn : Turn core c.timing now n new) :
    n.timerUs = now ∨ (n.una = n.next ∧ ∀ i, (n.pending i).used = false) ∨
      (n.timerUs = c.timerUs ∧ n.una = c.una ∧ (n.una ≠ n.next → c.una ≠ c.next) ∧
        ∀ i, (n.pending i).used = true → (n.pending i).sequence = c.una →
          n.pending i = c.pending i ∧ ∀ e ∈ new, ∀ q, (c.pending i).Holds q →
            (⟨now, c.timing.rate, e⟩ : Transmission).covers q = false) := by
  cases hturn with
  | keep => exact Or.inr (Or.inr ⟨rfl, rfl, id, fun i _ _ ↦ ⟨rfl, by simp⟩⟩)
  | idle => exact Or.inr (Or.inr ⟨rfl, rfl, id, fun i _ _ ↦ ⟨rfl, by simp⟩⟩)
  | resend => exact Or.inl rfl
  | acknowledge => exact Or.inl rfl
  | establish estimate hopen hempty =>
    refine Or.inr (Or.inl ⟨rfl, fun i ↦ ?_⟩)
    change (Function.update c.pending 0 { c.pending 0 with used := false } i).used = false
    by_cases hzero : i = 0
    · rw [hzero, Function.update_self]
    · rw [Function.update_of_ne hzero]
      exact hempty i hzero
  | append slot s idle deliveredUs flightUs e hunused hused hsequence hretries hlength hdelivered
      hflight hstamps hidle hgate he =>
    cases idle with
    | true => exact Or.inl rfl
    | false =>
      have hbusy : ∃ j, (c.pending j).used = true := by
        by_contra hnone
        have hall : ∀ j, (c.pending j).used = false := by simpa using hnone
        cases hidle.mpr hall
      obtain ⟨j, hj⟩ := hbusy
      have hopen := hc.una_ne_next hj
      refine Or.inr (Or.inr ⟨rfl, rfl, fun _ ↦ hopen, fun i hi hfirst ↦ ?_⟩)
      change (Function.update c.pending slot (s.sentAt now) i).used = true at hi
      change (Function.update c.pending slot (s.sentAt now) i).sequence = c.una at hfirst
      change Function.update c.pending slot (s.sentAt now) i = c.pending i ∧ _
      by_cases hne : i = slot
      · subst hne
        rw [Function.update_self] at hfirst
        exact absurd (hfirst.symm.trans hsequence) hopen
      · rw [Function.update_of_ne hne] at hi ⊢
        refine ⟨rfl, fun e' he' q hq ↦ ?_⟩
        rw [List.mem_singleton.mp he', Bool.eq_false_iff]
        exact fun hcovers ↦ hc.fresh hsequence hlength hi hq
          ((he.covers_iff (TcpSegment.sized_of_le hlength)).mp hcovers)

theorem Timed.turn {advances : List UInt64} {n : Timing} {new : List Emission}
    (h : Timed advances sent c.timing) (hc : Laid c) (hturn : Turn core c.timing now n new)
    (hadvances : ∀ t ∈ advances, t ≤ now) (hsent : ∀ x ∈ sent, x.time ≤ now) :
    Timed (advances ++ if n.una = c.una then [] else [now])
      (sent ++ new.map fun e ↦ ⟨now, c.timing.rate, e⟩) n := by
  have hadvances' : ∀ t ∈ advances ++ (if n.una = c.una then [] else [now]), t ≤ now := by
    intro t ht
    rcases List.mem_append.mp ht with ht | ht
    · exact hadvances t ht
    · split at ht
      · cases ht
      · rw [List.mem_singleton.mp ht]
        exact UInt64.le_refl now
  have hsent' : ∀ x ∈ sent ++ new.map (fun e ↦ (⟨now, c.timing.rate, e⟩ : Transmission)),
      x.time ≤ now := by
    intro x hx
    rcases List.mem_append.mp hx with hx | hx
    · exact hsent x hx
    · obtain ⟨e, -, rfl⟩ := List.mem_map.mp hx
      exact UInt64.le_refl now
  rcases hturn.timer hc with htimer | ⟨hdone, hempty⟩ | ⟨htimer, huna, hopen, hslot⟩
  · refine ⟨fun _ _ _ _ _ x hx _ ↦ ?_, fun _ t ht ↦ ?_⟩
    · rw [htimer]
      exact hsent' x hx
    · rw [htimer]
      exact hadvances' t ht
  · refine ⟨fun i hi ↦ ?_, fun hne ↦ absurd hdone hne⟩
    rw [hempty i] at hi
    cases hi
  · rw [if_pos huna, List.append_nil]
    refine ⟨?_, ?_⟩
    · intro i hi hfirst q hq x hx hcovers
      rw [huna] at hfirst
      obtain ⟨hsame, hnew⟩ := hslot i hi hfirst
      rw [hsame] at hi hfirst hq
      rw [htimer]
      rcases List.mem_append.mp hx with hx | hx
      · exact h.sent_le i hi hfirst q hq x hx hcovers
      · obtain ⟨e, he, rfl⟩ := List.mem_map.mp hx
        rw [hnew e he q hq] at hcovers
        cases hcovers
    · intro hne t ht
      rw [htimer]
      exact h.advance_le (hopen hne) t ht

end

/-! ## Runs -/

variable (core)

/-- The time of a call at which `una` advances. -/
def advancesOf (c : Tcp ρ) (event : Event) : List UInt64 :=
  if (step core c event).una = c.una then [] else [event.time]

/-- The times at which `una` advances in a run, the earliest first. -/
def advances : Tcp ρ → List Event → List UInt64
  | _, [] => []
  | c, event :: events => advancesOf core c event ++ advances (step core c event) events

theorem advances_concat (c : Tcp ρ) (events : List Event) (event : Event) :
    advances core c (events ++ [event]) =
      advances core c events ++ advancesOf core (run (step core) c events) event := by
  induction events generalizing c with
  | nil => simp [advances]
  | cons first events ih =>
    rw [List.cons_append, advances, ih, advances, List.append_assoc, run_cons]

theorem time_of_mem_advances {c : Tcp ρ} {events : List Event} {t : UInt64}
    (h : t ∈ advances core c events) : ∃ event ∈ events, event.time = t := by
  induction events generalizing c with
  | nil => cases h
  | cons event events ih =>
    rcases List.mem_append.mp h with h | h
    · unfold advancesOf at h
      split at h
      · cases h
      · exact ⟨event, List.mem_cons_self, (List.mem_singleton.mp h).symm⟩
    · obtain ⟨other, hother, htime⟩ := ih h
      exact ⟨other, List.mem_cons_of_mem event hother, htime⟩

theorem step_of_rest {c : Tcp ρ} (h : c.state = .idle ∨ c.state = .failed) (event : Event) :
    step core c event = c := by
  rcases h with hidle | hfailed
  · cases event with
    | input b size now =>
      change tcpInput core c b size now = c
      unfold tcpInput
      split
      · rfl
      · dsimp only
        rw [if_neg (by rw [hidle]; decide), if_pos (by rw [hidle]; decide)]
    | tick now =>
      change tcpTick core c now = c
      unfold tcpTick
      rw [if_pos (Or.inl hidle)]
  · exact step_of_failed core hfailed event

theorem transmissionsOf_of_rest {c : Tcp ρ} (h : c.state = .idle ∨ c.state = .failed) (event : Event) :
    transmissionsOf core c event = [] := by
  rw [transmissionsOf, step_of_rest core h, transmissions_of_context (List.nil_append c.context).symm]
  rfl

theorem advancesOf_of_rest {c : Tcp ρ} (h : c.state = .idle ∨ c.state = .failed) (event : Event) :
    advancesOf core c event = [] := by
  rw [advancesOf, step_of_rest core h, if_pos rfl]

variable {core}

theorem Tcp.rest_or_open (c : Tcp ρ) :
    (c.state = .idle ∨ c.state = .failed) ∨ (c.state = .synSent ∨ c.endpoint.Live) := by
  unfold Endpoint.Live
  cases h : c.state <;> simp [h]

/-- The invariant of a run: the queue, the transmissions and the timer agree. -/
structure TimerRun (advances : List UInt64) (sent : List Transmission) (c : Tcp ρ) : Prop where
  history : History c.isn sent c.timing
  timed : Timed advances sent c.timing

theorem TimerRun.step {times : List UInt64} {sent : List Transmission} {c : Tcp ρ} {event : Event}
    (h : TimerRun times sent c) (hsound : c.endpoint.Sound) (htimes : ∀ t ∈ times, t ≤ event.time)
    (hsent : ∀ x ∈ sent, x.time ≤ event.time)
    (hturn : Turn core c.timing event.time (step core c event).timing
      (transmissions c (step core c event))) :
    TimerRun (times ++ advancesOf core c event) (sent ++ transmissionsOf core c event)
      (step core c event) := by
  rcases c.rest_or_open with hrest | hopen
  · rw [step_of_rest core hrest, transmissionsOf_of_rest core hrest, advancesOf_of_rest core hrest,
      List.append_nil, List.append_nil]
    exact h
  · have hlaid := laid_of_sound hsound hopen
    have hisn : (Transport.step core c event).isn = c.isn :=
      congrArg Endpoint.Transfer.isn (transfer_step core c event)
    refine ⟨?_, h.timed.turn hlaid hturn htimes hsent⟩
    rw [hisn]
    exact h.history.turn hlaid hturn

theorem timerUs_turn {m n : Timing} {now : UInt64} {new : List Emission}
    (hturn : Turn core m now n new) : n.timerUs = m.timerUs ∨ n.timerUs = now := by
  cases hturn with
  | keep => exact Or.inl rfl
  | idle => exact Or.inl rfl
  | resend => exact Or.inr rfl
  | acknowledge => exact Or.inr rfl
  | establish => exact Or.inl rfl
  | append slot s idle =>
    cases idle with
    | true => exact Or.inr rfl
    | false => exact Or.inl rfl

theorem Request.connect_timing (r : Request) (core : LarpCore ρ) :
    (∀ i, ((r.connect core).pending i).used = false) ∧ (r.connect core).timerUs = 0 := by
  unfold Request.connect tcpStart
  dsimp only
  split <;> exact ⟨fun _ ↦ rfl, rfl⟩

/-- A run of a connection that was opened with nothing in the queue. -/
theorem timerRun (core : LarpCore ρ) {c : Tcp ρ} (hsound : c.endpoint.Sound) (hempty : ∀ i, (c.pending i).used = false)
    (htimer : c.timerUs = 0) {events : List Event} (hclock : Clocked events) :
    TimerRun (advances core c events) (timeline core c events) (run (step core) c events) ∧
      ∀ t, (∀ e ∈ events, e.time ≤ t) → (run (step core) c events).timerUs ≤ t := by
  have hslot : ∀ i, (c.timing.pending i).used = true → False := by
    intro i hi
    rw [Tcp.timing_pending, hempty i] at hi
    cases hi
  refine timeline_induction hsound hclock
    (fun before sent d ↦ TimerRun (advances core c before) sent d ∧
      ∀ t, (∀ e ∈ before, e.time ≤ t) → d.timerUs ≤ t) ?_ ?_
  · refine ⟨⟨⟨by simp, by simp, fun i hi ↦ (hslot i hi).elim, fun i hi ↦ (hslot i hi).elim⟩, ?_⟩, ?_⟩
    · exact ⟨fun i hi ↦ (hslot i hi).elim, by simp [advances]⟩
    · intro t _
      rw [htimer, UInt64.le_iff_toNat_le]
      exact Nat.zero_le _
  · rintro before event d rfl hsound' htime hsent hturn ⟨hrun, hle⟩
    refine ⟨?_, ?_⟩
    · rw [advances_concat]
      refine hrun.step hsound' ?_ hsent hturn
      intro t ht
      obtain ⟨e, he, rfl⟩ := time_of_mem_advances core ht
      exact htime e he
    · intro t ht
      change (step core _ event).timing.timerUs ≤ t
      rcases timerUs_turn hturn with hsame | hnow
      · rw [hsame]
        exact hle t fun e he ↦ ht e (List.mem_append_left _ he)
      · rw [hnow]
        exact ht event (List.mem_append_right _ (List.mem_singleton_self event))

/-- The two transmissions carry a sequence number in common. -/
def Transmission.Overlaps (x y : Transmission) : Prop :=
  ∃ q, x.covers q = true ∧ y.covers q = true

/-- What a tick sends again is the segment at `una`, and the timer has run for it. -/
theorem TimerRun.resend {times : List UInt64} {sent : List Transmission} {c : Tcp ρ} {now : UInt64}
    (h : TimerRun times sent c) (hsound : c.endpoint.Sound) (htimer : c.timerUs ≤ now)
    {x y : Transmission} (hx : x ∈ transmissionsOf core c (.tick now)) (hy : y ∈ sent)
    (hagain : x.Overlaps y) :
    x.segment.sequence = c.una ∧ y.time ≤ c.timerUs ∧ (∀ t ∈ times, t ≤ c.timerUs) ∧
      c.timerUs.toNat + c.rtoUs.toNat ≤ now.toNat := by
  rcases c.rest_or_open with hrest | hopen
  · rw [transmissionsOf_of_rest core hrest] at hx
    cases hx
  have hlaid := laid_of_sound hsound hopen
  have hturn : Turn core c.timing now (tcpTick core c now).timing
      (transmissions c (tcpTick core c now)) := (step_turns core hsound (.tick now)).turn
  have hpending : ∀ i, (c.pending i).used = true → timerDue (acknowledge c) now = false →
      (tcpTick core c now).timing.pending i = c.pending i := fun i hused hdue ↦
    tcpTick_pending hsound hdue hused
  obtain ⟨e, he, rfl⟩ := List.mem_map.mp hx
  obtain ⟨q, hqx, hqy⟩ := hagain
  change e ∈ transmissions c (tcpTick core c now) at he
  generalize (tcpTick core c now).timing = n, transmissions c (tcpTick core c now) = new
    at hturn hpending he
  cases hturn with
  | keep => cases he
  | idle => cases he
  | acknowledge => cases he
  | establish => cases he
  | append slot s idle deliveredUs flightUs e' hunused hused hsequence hretries hlength hdelivered
      hflight hstamps hidle hgate he' =>
    rw [List.mem_singleton.mp he] at hqx
    have hholds := (he'.covers_iff (TcpSegment.sized_of_le hlength)).mp hqx
    have hnone := h.history.unsent q (hlaid.behind hsequence hlength hholds).1
    have hmem := List.mem_filter.mpr ⟨hy, hqy⟩
    rw [hnone] at hmem
    cases hmem
  | resend i timeout rate e' hused hfirst hretries _ hgate hrate he' =>
    rw [List.mem_singleton.mp he] at hqx ⊢
    have hholds := (he'.covers_iff (hlaid.sized i hused)).mp hqx
    have hdue : timerDue (acknowledge c) now = true := by
      by_contra hearly
      have hsame := hpending i hused (Bool.eq_false_iff.mpr hearly)
      change Function.update c.pending i ((c.pending i).resentAt now) i = c.pending i at hsame
      rw [Function.update_self] at hsame
      have hcount : (c.pending i).retries + 1 = (c.pending i).retries :=
        congrArg TcpSegment.retries hsame
      exact absurd (UInt8.add_eq_left.mp hcount) (by decide)
    have htiming := (acknowledge_silent c).1
    have htimerUs : (acknowledge c).timerUs = c.timerUs := congrArg Timing.timerUs htiming
    have hrto : (acknowledge c).rtoUs = c.rtoUs := congrArg (Estimate.rtoUs ∘ Timing.estimate) htiming
    rw [timerDue, htimerUs, hrto, Bool.and_eq_true, decide_eq_true_eq, ge_iff_le,
      UInt64.le_iff_toNat_le, UInt64.toNat_sub_of_le _ _ htimer, UInt32.toNat_toUInt64] at hdue
    rw [UInt64.le_iff_toNat_le] at htimer
    refine ⟨he'.sequence_eq.trans hfirst, h.timed.sent_le i hused hfirst q hholds y hy hqy,
      h.timed.advance_le (hlaid.una_ne_next hused), ?_⟩
    omega

variable (core)

/-- No segment is transmitted more than nine times; what a tick sends again is the segment at `una`,
and the timeout has passed since each of its transmissions and since `una` last advanced. -/
theorem no_early_timeout (r : Request) (events : List Event) (hclock : Clocked events) :
    (∀ q, ((timeline core (r.connect core) events).filter (Transmission.covers q)).length ≤ 9) ∧
      ∀ before now after, events = before ++ .tick now :: after →
        ∀ x ∈ transmissionsOf core (run (step core) (r.connect core) before) (.tick now),
          ∀ y ∈ timeline core (r.connect core) before, x.Overlaps y →
            x.segment.sequence = (run (step core) (r.connect core) before).una ∧
              y.time.toNat + (run (step core) (r.connect core) before).rtoUs.toNat ≤ now.toNat ∧
              ∀ t ∈ advances core (r.connect core) before,
                t.toNat + (run (step core) (r.connect core) before).rtoUs.toNat ≤ now.toNat := by
  obtain ⟨hempty, htimer⟩ := r.connect_timing core
  have hsound := r.connect_sound core
  refine ⟨(timerRun core hsound hempty htimer hclock).1.history.most, ?_⟩
  rintro before now after rfl x hx y hy hagain
  have hbefore : Clocked before := (List.pairwise_append.mp hclock).1
  obtain ⟨hrun, hle⟩ := timerRun core hsound hempty htimer hbefore
  obtain ⟨hsequence, hlast, hadvances, hdue⟩ :=
    hrun.resend (sound_events core hsound before) (hle now hclock.le) hx hy hagain
  refine ⟨hsequence, ?_, fun t ht ↦ ?_⟩
  · rw [UInt64.le_iff_toNat_le] at hlast
    omega
  · have ht := UInt64.le_iff_toNat_le.mp (hadvances t ht)
    omega

/-- Nobody answers the SYN. -/
def lonelyRequest : Request where
  localPort := 1
  peerPort := 2
  isn := 100
  data := some Memory.zero
  size := 1000
  now := 0
  emit := fun _ _ _ ↦ true

def lonelyTicks : List Event := [.tick 5, .tick 1000004, .tick 1000005]

/-- The second tick is too early, the third sends the SYN again. -/
theorem no_early_timeout_lonelyTicks :
    (timeline steadyCore (lonelyRequest.connect steadyCore) lonelyTicks).map Transmission.time =
        [5, 1000005] ∧
      ((∀ q, ((timeline steadyCore (lonelyRequest.connect steadyCore) lonelyTicks).filter
          (Transmission.covers q)).length ≤ 9) ∧
        ∀ before now after, lonelyTicks = before ++ .tick now :: after →
          ∀ x ∈ transmissionsOf steadyCore
              (run (step steadyCore) (lonelyRequest.connect steadyCore) before) (.tick now),
            ∀ y ∈ timeline steadyCore (lonelyRequest.connect steadyCore) before, x.Overlaps y →
              x.segment.sequence =
                  (run (step steadyCore) (lonelyRequest.connect steadyCore) before).una ∧
                y.time.toNat +
                  (run (step steadyCore) (lonelyRequest.connect steadyCore) before).rtoUs.toNat ≤
                    now.toNat ∧
                ∀ t ∈ advances steadyCore (lonelyRequest.connect steadyCore) before, t.toNat +
                  (run (step steadyCore) (lonelyRequest.connect steadyCore) before).rtoUs.toNat ≤
                    now.toNat) :=
  ⟨by decide +kernel, no_early_timeout steadyCore lonelyRequest lonelyTicks (by
    unfold Clocked lonelyTicks
    decide)⟩

end JordyOS.Transport
