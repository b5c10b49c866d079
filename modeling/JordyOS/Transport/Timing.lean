import JordyOS.Transport.Outstanding
import JordyOS.Transport.Segment

/-!
# What a call does to the clocks

The fields of a connection that decide when it sends: the time stamps of the slots, the
retransmission timer, the pacing gate and the round-trip estimate.  `Turn` lists what one call may do
to them and which segments it sends meanwhile; whatever holds of the timing over runs is derived from
it.
-/

namespace JordyOS.Transport

open Machine Net

variable {ρ : Type} (core : LarpCore ρ)

/-! ## Timing -/

/-- The round-trip estimate and the timeout derived from it. -/
structure Estimate where
  srttUs : UInt32
  rttvarUs : UInt32
  rtoUs : UInt32

/-- The estimate after a sample, as `rtt_sample` computes it. -/
def Estimate.sample (e : Estimate) (rtt : UInt32) : Estimate :=
  let rtt := if rtt = 0 then 1 else rtt
  let difference := if e.srttUs > rtt then e.srttUs - rtt else rtt - e.srttUs
  let rttvar := if e.srttUs = 0 then rtt / 2 else (3 * e.rttvarUs + difference) / 4
  let srtt := if e.srttUs = 0 then rtt else (7 * e.srttUs + rtt) / 8
  { srttUs := srtt
    rttvarUs := rttvar
    rtoUs := (core.min 60000000 (core.max 1000000
      (srtt.toUInt64 + core.max 1000 (4 * rttvar.toUInt64)))).toUInt32 }

/-- The timeout doubles, up to a minute. -/
def Estimate.backoff (e : Estimate) : Estimate := { e with rtoUs := min32 60000000 (e.rtoUs * 2) }

structure Timing where
  una : UInt32
  next : UInt32
  pending : Fin tcpSlots → TcpSegment
  estimate : Estimate
  timeouts : UInt32
  timerUs : UInt64
  nextSendUs : UInt64
  deliveredUs : UInt64
  flightUs : UInt64
  rate : UInt64

namespace Tcp

@[simps]
def estimate (c : Tcp ρ) : Estimate := ⟨c.srttUs, c.rttvarUs, c.rtoUs⟩

@[simps]
def timing (c : Tcp ρ) : Timing where
  una := c.una
  next := c.next
  pending := c.pending
  estimate := c.estimate
  timeouts := c.timeouts
  timerUs := c.timerUs
  nextSendUs := c.nextSendUs
  deliveredUs := c.deliveredUs
  flightUs := c.flightUs
  rate := c.larp.rate

end Tcp

/-- An emission that `transmit` makes and `emit` accepts: only its segments carry a SYN, data or a
FIN. -/
def Emission.transmitted (e : Emission) : Bool :=
  e.accepted && has e.flags (tcpSyn ||| tcpPsh ||| tcpFin)

/-- The emission carries a segment of the queue. -/
structure Emission.Transmits (e : Emission) (s : TcpSegment) : Prop where
  sequence_eq : e.sequence = s.sequence
  length_eq : e.length = s.length.toNat
  flags_eq : e.flags = s.flags
  transmitted : e.transmitted = true

/-- A segment after a cumulative acknowledgement. -/
def TcpSegment.acknowledge (a : UInt32) (s : TcpSegment) : TcpSegment :=
  if !s.used || !before s.sequence a then s
  else if a - s.sequence ≥ sequenceSize s then { s with used := false }
  else { s with
    sequence := s.sequence + (a - s.sequence)
    offset := s.offset + (a - s.sequence)
    length := s.length - (a - s.sequence) }

/-- A segment after its first transmission. -/
def TcpSegment.sentAt (s : TcpSegment) (now : UInt64) : TcpSegment := { s with sentUs := now }

/-- A segment after one more transmission. -/
def TcpSegment.resentAt (s : TcpSegment) (now : UInt64) : TcpSegment :=
  { s with sentUs := now, retries := s.retries + 1 }

/-- An acknowledgement covers the segment, wholly or in part. -/
def TcpSegment.Covered (a : UInt32) (s : TcpSegment) : Prop :=
  s.used = true ∧ before s.sequence a = true

/-! ## Turns -/

namespace Timing

/-- The pacing gate after a segment with `length` bytes. -/
def paced (m : Timing) (now : UInt64) (length : UInt32) : UInt64 :=
  if length ≠ 0 then now + core.max 1 (core.div (length.toUInt64 * 1000000 + m.rate - 1) m.rate)
  else m.nextSendUs

/-- Slot `i` is sent again. -/
def resend (m : Timing) (i : Fin tcpSlots) (now : UInt64) (timeout : Bool) (rate : UInt64) : Timing :=
  { m with
    pending := Function.update m.pending i ((m.pending i).resentAt now)
    estimate := if timeout then m.estimate.backoff else m.estimate
    timeouts := if timeout then m.timeouts + 1 else m.timeouts
    timerUs := now
    nextSendUs := m.paced core now (m.pending i).length
    rate := rate }

/-- Everything below `a` is acknowledged. -/
def acknowledge (m : Timing) (a : UInt32) (now : UInt64) (estimate : Estimate) (rate : UInt64) :
    Timing :=
  { m with
    una := a
    pending := fun i ↦ (m.pending i).acknowledge a
    estimate := estimate
    timerUs := now
    deliveredUs := now
    rate := rate }

/-- The SYN is acknowledged. -/
def establish (m : Timing) (now : UInt64) (estimate : Estimate) : Timing :=
  { m with
    una := m.next
    pending := Function.update m.pending 0 { m.pending 0 with used := false }
    estimate := estimate
    deliveredUs := now }

/-- A new segment is sent and takes a slot. -/
def append (m : Timing) (slot : Fin tcpSlots) (s : TcpSegment) (now : UInt64) (idle : Bool)
    (deliveredUs flightUs : UInt64) : Timing :=
  { m with
    next := m.next + sequenceSize s
    pending := Function.update m.pending slot (s.sentAt now)
    timerUs := if idle then now else m.timerUs
    nextSendUs := m.paced core now s.length
    deliveredUs := deliveredUs
    flightUs := flightUs }

/-- The estimate after an acknowledgement: a sample is taken from the newest segment it covers, and
only when it covers no segment that was sent more than once. -/
inductive Sampled (m : Timing) (a : UInt32) (now : UInt64) : Estimate → Prop
  | keep : Sampled m a now m.estimate
  | sample (i : Fin tcpSlots) (hcovered : (m.pending i).Covered a)
      (honce : ∀ j, (m.pending j).Covered a → (m.pending j).retries = 0)
      (hnewest : ∀ j, (m.pending j).Covered a →
        before (m.pending i).sequence (m.pending j).sequence = false) :
      Sampled m a now
        (m.estimate.sample core (core.min (now - (m.pending i).sentUs) 60000000).toUInt32)

/-- The rate is the one before, or what the controller makes of it. -/
def Controlled (m : Timing) (rate : UInt64) : Prop :=
  rate = m.rate ∨ ∃ model f, model.rate = m.rate ∧ rate = (core.update model f).rate

end Timing

/-- What a call at time `now` does to the timing, with the segments `transmit` sends in it. -/
inductive Turn (m : Timing) (now : UInt64) : Timing → List Emission → Prop
  | keep : Turn m now m []
  | idle : Turn m now { m with deliveredUs := now, flightUs := now } []
  | resend (i : Fin tcpSlots) (timeout : Bool) (rate : UInt64) (e : Emission)
      (hused : (m.pending i).used = true) (hfirst : (m.pending i).sequence = m.una)
      (hretries : (m.pending i).retries < 8)
      (hdue : timeout = true → now - m.timerUs ≥ m.estimate.rtoUs.toUInt64)
      (hgate : (m.pending i).length ≠ 0 → m.nextSendUs ≤ now)
      (hrate : m.Controlled core rate) (he : e.Transmits (m.pending i)) :
      Turn m now (m.resend core i now timeout rate) [e]
  | acknowledge (a : UInt32) (estimate : Estimate) (rate : UInt64) (hnew : a ≠ m.una)
      (hlow : before a m.una = false) (hhigh : before m.next a = false)
      (hestimate : m.Sampled core a now estimate) (hrate : m.Controlled core rate) :
      Turn m now (m.acknowledge a now estimate rate) []
  | establish (estimate : Estimate) (hopen : m.una ≠ m.next)
      (hempty : ∀ i, i ≠ 0 → (m.pending i).used = false)
      (hestimate : estimate = if (m.pending 0).retries = 0
        then m.estimate.sample core (core.min (now - (m.pending 0).sentUs) 60000000).toUInt32
        else { m.estimate with rtoUs := 3000000 }) :
      Turn m now (m.establish now estimate) []
  | append (slot : Fin tcpSlots) (s : TcpSegment) (idle : Bool) (deliveredUs flightUs : UInt64)
      (e : Emission) (hunused : (m.pending slot).used = false) (hused : s.used = true)
      (hsequence : s.sequence = m.next) (hretries : s.retries = 0) (hlength : s.length.toNat ≤ 65535)
      (hdelivered : deliveredUs = m.deliveredUs ∨ deliveredUs = now)
      (hflight : flightUs = m.flightUs ∨ flightUs = now)
      (hstamps : (s.deliveredUs = 0 ∨ s.deliveredUs = deliveredUs) ∧
        (s.flightUs = 0 ∨ s.flightUs = flightUs))
      (hidle : idle = true ↔ ∀ j, (m.pending j).used = false)
      (hgate : s.length ≠ 0 → m.nextSendUs ≤ now) (he : e.Transmits s) :
      Turn m now (m.append core slot s now idle deliveredUs flightUs) [e]

/-- A call that leads from `c` to `d` is a turn of the timing. -/
def Turns (c : Tcp ρ) (now : UInt64) (d : Tcp ρ) : Prop :=
  ∃ sent, d.context = sent ++ c.context ∧
    Turn core c.timing now d.timing (sent.filter Emission.transmitted)

/-- Nothing happens to the timing, and `transmit` sends nothing. -/
def Silent (c d : Tcp ρ) : Prop :=
  d.timing = c.timing ∧
    ∃ sent, d.context = sent ++ c.context ∧ sent.filter Emission.transmitted = []

variable {core} {b c d : Tcp ρ} {now : UInt64}

theorem Silent.of_eq (htiming : d.timing = c.timing) (hcontext : d.context = c.context) :
    Silent c d := ⟨htiming, [], hcontext, rfl⟩

theorem Silent.refl (c : Tcp ρ) : Silent c c := Silent.of_eq rfl rfl

theorem Silent.trans (hfirst : Silent b c) (hsecond : Silent c d) : Silent b d := by
  obtain ⟨htiming, first, hcontext, hfilter⟩ := hfirst
  obtain ⟨htiming', second, hcontext', hfilter'⟩ := hsecond
  refine ⟨htiming'.trans htiming, second ++ first, ?_, ?_⟩
  · rw [hcontext', hcontext, List.append_assoc]
  · rw [List.filter_append, hfilter, hfilter', List.append_nil]

theorem Silent.turns (h : Silent c d) : Turns core c now d := by
  obtain ⟨htiming, sent, hcontext, hfilter⟩ := h
  refine ⟨sent, hcontext, ?_⟩
  rw [htiming, hfilter]
  exact Turn.keep

theorem Turns.of_silent (hfirst : Silent b c) (h : Turns core c now d) : Turns core b now d := by
  obtain ⟨htiming, first, hcontext, hfilter⟩ := hfirst
  obtain ⟨second, hcontext', hturn⟩ := h
  refine ⟨second ++ first, by rw [hcontext', hcontext, List.append_assoc], ?_⟩
  rw [List.filter_append, hfilter, List.append_nil, ← htiming]
  exact hturn

theorem Turns.silent (h : Turns core b now c) (hlast : Silent c d) : Turns core b now d := by
  obtain ⟨first, hcontext, hturn⟩ := h
  obtain ⟨htiming, second, hcontext', hfilter⟩ := hlast
  refine ⟨second ++ first, by rw [hcontext', hcontext, List.append_assoc], ?_⟩
  rw [List.filter_append, hfilter, List.nil_append, htiming]
  exact hturn

/-! ## Segments that carry nothing -/

theorem Endpoint.emission_transmitted (v : Endpoint) (seq : UInt32) (flags : UInt8) (data : Memory)
    (size : UInt32) (accepted : Bool) :
    (v.emission seq flags data size accepted).transmitted =
      (accepted && has flags (tcpSyn ||| tcpPsh ||| tcpFin)) := by
  rw [Emission.transmitted, Endpoint.emission_accepted, Endpoint.emission_flags]

theorem output_silent (c : Tcp ρ) (seq : UInt32) (flags : UInt8) (data : Memory) (size : UInt32)
    (hflags : has flags (tcpSyn ||| tcpPsh ||| tcpFin) = false) :
    Silent c (output c seq flags data size).1 := by
  refine ⟨rfl, [c.endpoint.emission seq flags data size (output c seq flags data size).2], rfl, ?_⟩
  rw [List.filter_cons_of_neg, List.filter_nil]
  rw [Endpoint.emission_transmitted, hflags, Bool.and_false]
  exact Bool.false_ne_true

theorem tcpAbort_silent (c : Tcp ρ) (reason : String) : Silent c (tcpAbort c reason) := by
  unfold tcpAbort
  split
  · exact (output_silent c c.next (tcpRst ||| tcpAck) Memory.zero 0 (by decide)).trans
      (Silent.of_eq rfl rfl)
  · exact Silent.of_eq rfl rfl

theorem acknowledge_silent (c : Tcp ρ) : Silent c (acknowledge c) := by
  unfold acknowledge
  split
  · exact (output_silent c c.next tcpAck Memory.zero 0 (by decide)).trans (Silent.of_eq rfl rfl)
  · exact Silent.refl c

theorem probe_silent (c : Tcp ρ) (now : UInt64) : Silent c (probe c now) :=
  (output_silent c (c.next - 1) tcpAck _ 1 (by decide)).trans (Silent.of_eq rfl rfl)

theorem store_silent (c : Tcp ρ) (data : Memory) (seq : UInt32) (flags : UInt8) (length : UInt32) :
    Silent c (store c data seq flags length) := by
  unfold store
  split
  · split
    · exact Silent.trans (Silent.of_eq rfl rfl) (tcpAbort_silent { c with ackPending := true } _)
    · exact Silent.of_eq rfl rfl
  · exact Silent.of_eq rfl rfl

/-! ## Transmission -/

/-- The emission `transmit` makes for a segment. -/
theorem transmit_cases (core : LarpCore ρ) (c : Tcp ρ) (s : TcpSegment) (now : UInt64) :
    ((transmit core c s now).2.2 = false ∧ Silent c (transmit core c s now).1) ∨
      ((transmit core c s now).2.2 = true ∧ (transmit core c s now).2.1 = { s with sentUs := now } ∧
        (transmit core c s now).1.timing =
          { c.timing with nextSendUs := c.timing.paced core now s.length } ∧
        ∃ e, (transmit core c s now).1.context = e :: c.context ∧
          (has s.flags (tcpSyn ||| tcpPsh ||| tcpFin) = true → e.Transmits s)) := by
  unfold transmit
  generalize hdata : (if s.length ≠ 0 then c.tx.shift s.offset.toNat else Memory.zero) = data
  have hemission : (output c s.sequence s.flags data s.length).1.context =
      c.endpoint.emission s.sequence s.flags data s.length
        (output c s.sequence s.flags data s.length).2 :: c.context := rfl
  have htiming : (output c s.sequence s.flags data s.length).1.timing = c.timing := rfl
  generalize output c s.sequence s.flags data s.length = r at hemission htiming ⊢
  obtain ⟨d, sent⟩ := r
  simp only at hemission htiming ⊢
  cases sent with
  | false =>
    refine Or.inl ⟨rfl, htiming, [_], hemission, ?_⟩
    rw [List.filter_cons_of_neg, List.filter_nil]
    rw [Endpoint.emission_transmitted]
    exact Bool.false_ne_true
  | true =>
    refine Or.inr ⟨rfl, rfl, ?_, c.endpoint.emission s.sequence s.flags data s.length true, ?_,
      fun hflags ↦ ?_⟩
    · simp only [Bool.not_true, Bool.false_eq_true, if_false]
      unfold Timing.paced
      rw [← htiming]
      split <;> rfl
    · simp only [Bool.not_true, Bool.false_eq_true, if_false]
      split <;> exact hemission
    · refine ⟨?_, ?_, ?_, ?_⟩
      · exact Endpoint.emission_sequence _ _ _ _ _ _
      · exact Endpoint.emission_length _ _ _ _ _ _
      · exact Endpoint.emission_flags _ _ _ _ _ _
      · rw [Endpoint.emission_transmitted, hflags]
        rfl

/-! ## The oldest segment -/

/-- A slot in use holds a SYN, data or a FIN. -/
theorem slot_flags (h : c.endpoint.Sound) (hstate : c.state = .synSent ∨ c.endpoint.Live)
    {i : Fin tcpSlots} (hused : (c.pending i).used = true) :
    has (c.pending i).flags (tcpSyn ||| tcpPsh ||| tcpFin) = true := by
  rcases hstate with hsyn | hlive
  · have hslot := ((h.opening hsyn).syn i hused).2.1
    have hflags : (c.pending i).flags = tcpSyn := congrArg Slot.flags hslot
    rw [hflags]
    decide
  · rcases (h.queue hlive).entry i hused with hdata | hfin
    · have hflags : (c.pending i).flags = tcpAck ||| tcpPsh := hdata.flags_eq
      rw [hflags]
      decide
    · have hflags : (c.pending i).flags = tcpAck ||| tcpFin := hfin.flags_eq
      rw [hflags]
      decide

theorem una_ne_next (h : c.sender.Queue) {i : Fin tcpSlots} (hused : (c.pending i).used = true) :
    c.una ≠ c.next := by
  have hslot := h.slot_le hused
  intro heq
  have hsame : distance c.sender.isn c.sender.una = distance c.sender.isn c.sender.next :=
    congrArg _ heq
  omega

theorem oldest_sequence (h : c.endpoint.Sound) (hstate : c.state = .synSent ∨ c.endpoint.Live)
    {i : Fin tcpSlots} (hold : oldest c = some i) : (c.pending i).sequence = c.una := by
  have hused := oldest_used hold
  rcases hstate with hsyn | hlive
  · have hopening := h.opening hsyn
    have huna : c.una = c.isn := hopening.una_eq
    rw [huna]
    exact congrArg Slot.sequence (hopening.syn i hused).2.1
  · have hqueue : c.sender.Queue := h.queue hlive
    obtain ⟨j, hj, -, hsequence⟩ := exists_oldest hqueue (una_ne_next hqueue hused)
    rw [hold, Option.some.injEq] at hj
    rw [hj]
    exact hsequence

/-! ## Loss -/

theorem retransmitted_timing {s : TcpSegment} {i : Fin tcpSlots} (timeout : Bool)
    (htiming : d.timing = { c.timing with nextSendUs := c.timing.paced core now (c.pending i).length })
    (hs : s = { c.pending i with sentUs := now }) :
    (retransmitted d i s now timeout).timing = c.timing.resend core i now timeout c.larp.rate := by
  have hstep : (retransmitted d i s now timeout).timing = { d.timing with
      pending := Function.update d.timing.pending i { s with retries := s.retries + 1 }
      estimate := if timeout then d.timing.estimate.backoff else d.timing.estimate
      timeouts := if timeout then d.timing.timeouts + 1 else d.timing.timeouts
      timerUs := now } := by
    cases timeout <;> rfl
  rw [hstep, htiming, hs]
  rfl

theorem loss_turns (h : c.endpoint.Sound) (hstate : c.state = .synSent ∨ c.endpoint.Live)
    (timeout : Bool) (hdue : timeout = true → now - c.timerUs ≥ c.rtoUs.toUInt64) :
    Turns core c now (loss core c now timeout) := by
  unfold loss
  split
  · exact (Silent.refl c).turns
  rename_i i hold
  have hused := oldest_used hold
  split
  · exact (tcpAbort_silent c _).turns
  rename_i hretries
  split
  · exact (Silent.refl c).turns
  rename_i hgate
  have hresend : ∀ rate e, c.timing.Controlled core rate → e.Transmits (c.pending i) →
      Turn core c.timing now (c.timing.resend core i now timeout rate) [e] := by
    intro rate e hrate he
    refine Turn.resend i timeout rate e hused (oldest_sequence h hstate hold)
      (UInt8.not_le.mp hretries) hdue ?_ hrate he
    intro hlength
    exact UInt64.not_lt.mp fun hlate ↦ hgate ⟨hlate, hlength⟩
  have hcases := transmit_cases core c (c.pending i) now
  generalize transmit core c (c.pending i) now = r at hcases ⊢
  obtain ⟨d, s, sent⟩ := r
  simp only at hcases ⊢
  rcases hcases with ⟨rfl, hsilent⟩ | ⟨rfl, hs, htiming, e, hcontext, he⟩
  · exact hsilent.turns
  · have he := he (slot_flags h hstate hused)
    have hretransmitted := retransmitted_timing timeout htiming hs
    have hfilter : [e].filter Emission.transmitted = [e] :=
      List.filter_cons_of_pos he.transmitted
    simp only [Bool.not_true, Bool.false_eq_true, if_false]
    split
    · refine ⟨[e], hcontext, ?_⟩
      rw [hfilter, hretransmitted]
      exact hresend _ e (Or.inl rfl) he
    · refine ⟨[e], hcontext, ?_⟩
      have hrecovery : (enterRecovery core (retransmitted d i s now timeout) now timeout).timing =
          { (retransmitted d i s now timeout).timing with
            rate := (enterRecovery core (retransmitted d i s now timeout) now timeout).larp.rate } := rfl
      have hrate : (retransmitted d i s now timeout).larp.rate = c.larp.rate :=
        congrArg Timing.rate hretransmitted
      rw [hfilter, hrecovery, hretransmitted]
      exact hresend _ e (Or.inr ⟨(retransmitted d i s now timeout).larp, _, hrate, rfl⟩) he

/-! ## The scan of an acknowledgement -/

theorem TcpSegment.acknowledge_of_not_covered {a : UInt32} {s : TcpSegment} (h : ¬ s.Covered a) :
    s.acknowledge a = s := by
  refine if_pos ?_
  rw [Bool.or_eq_true, Bool.not_eq_true', Bool.not_eq_true', ← Bool.not_eq_true, ← Bool.not_eq_true,
    ← not_and_or]
  exact h

theorem TcpSegment.not_skipped_iff {a : UInt32} {s : TcpSegment} :
    ¬ (!s.used || !before s.sequence a) = true ↔ s.Covered a := by
  rw [Bool.or_eq_true, Bool.not_eq_true', Bool.not_eq_true', not_or, Bool.not_eq_false,
    Bool.not_eq_false]
  rfl

theorem TcpSegment.acknowledge_of_covered {a : UInt32} {s : TcpSegment} (h : s.Covered a) :
    s.acknowledge a = if decide (a - s.sequence ≥ sequenceSize s) then { s with used := false } else
      { s with
        sequence := s.sequence + (a - s.sequence)
        offset := s.offset + (a - s.sequence)
        length := s.length - (a - s.sequence) } := by
  unfold TcpSegment.acknowledge
  rw [if_neg (TcpSegment.not_skipped_iff.mpr h)]
  simp only [decide_eq_true_eq]

/-- What the scan has found after some of the slots: `rank` is any order that agrees with the sequence
numbers of the segments covered. -/
structure Scanned (pending : Fin tcpSlots → TcpSegment) (a : UInt32) (rank : Fin tcpSlots → ℕ)
    (slots : List (Fin tcpSlots)) (r : AckScan) : Prop where
  pending_eq : ∀ j, r.pending j = if j ∈ slots then (pending j).acknowledge a else pending j
  retransmitted_iff : r.retransmitted = true ↔
    ∃ j ∈ slots, (pending j).Covered a ∧ (pending j).retries ≠ 0
  none : r.haveSample = false → ∀ j ∈ slots, (pending j).Covered a → (pending j).retries ≠ 0
  some : r.haveSample = true → ∃ i ∈ slots, (pending i).Covered a ∧ (pending i).retries = 0 ∧
    r.sample = pending i ∧
    ∀ j ∈ slots, (pending j).Covered a → (pending j).retries = 0 → rank j ≤ rank i

/-- The sample stays the newest one where the next slot has nothing newer to offer. -/
theorem Scanned.sample_kept {pending : Fin tcpSlots → TcpSegment} {a : UInt32} {rank : Fin tcpSlots → ℕ}
    {slots : List (Fin tcpSlots)} {r : AckScan} (h : Scanned pending a rank slots r) {slot : Fin tcpSlots}
    (hold : (pending slot).Covered a → (pending slot).retries = 0 → r.haveSample = true ∧
      ∀ i, (pending i).Covered a → r.sample = pending i → rank slot ≤ rank i) :
    (r.haveSample = false → ∀ j ∈ slots ++ [slot], (pending j).Covered a → (pending j).retries ≠ 0) ∧
    (r.haveSample = true → ∃ i ∈ slots ++ [slot], (pending i).Covered a ∧ (pending i).retries = 0 ∧
      r.sample = pending i ∧
      ∀ j ∈ slots ++ [slot], (pending j).Covered a → (pending j).retries = 0 → rank j ≤ rank i) := by
  constructor
  · intro hnone j hj hjcovered hjfresh
    rcases List.mem_append.mp hj with hj | hj
    · exact h.none hnone j hj hjcovered hjfresh
    · rw [List.mem_singleton.mp hj] at hjcovered hjfresh
      rw [(hold hjcovered hjfresh).1] at hnone
      cases hnone
  · intro hhave
    obtain ⟨i, hi, hicovered, hifresh, hsample, hleast⟩ := h.some hhave
    refine ⟨i, List.mem_append_left _ hi, hicovered, hifresh, hsample, ?_⟩
    intro j hj hjcovered hjfresh
    rcases List.mem_append.mp hj with hj | hj
    · exact hleast j hj hjcovered hjfresh
    · rw [List.mem_singleton.mp hj] at hjcovered hjfresh ⊢
      exact (hold hjcovered hjfresh).2 i hicovered hsample

/-- A sample that is newer than the one before is the newest. -/
theorem Scanned.sample_newest {pending : Fin tcpSlots → TcpSegment} {a : UInt32} {rank : Fin tcpSlots → ℕ}
    {slots : List (Fin tcpSlots)} {r : AckScan} (h : Scanned pending a rank slots r) {slot : Fin tcpSlots}
    (hnew : r.haveSample = true → ∀ i, (pending i).Covered a → r.sample = pending i → rank i ≤ rank slot)
    {j : Fin tcpSlots} (hj : j ∈ slots ++ [slot]) (hcovered : (pending j).Covered a)
    (hfresh : (pending j).retries = 0) : rank j ≤ rank slot := by
  rcases List.mem_append.mp hj with hj | hj
  · cases hhave : r.haveSample with
    | false => exact absurd hfresh (h.none hhave j hj hcovered)
    | true =>
      obtain ⟨i, -, hicovered, -, hsample, hleast⟩ := h.some hhave
      exact (hleast j hj hcovered hfresh).trans (hnew hhave i hicovered hsample)
  · rw [List.mem_singleton.mp hj]

theorem Scanned.step {pending : Fin tcpSlots → TcpSegment} {a : UInt32} {rank : Fin tcpSlots → ℕ}
    (hrank : ∀ i j, (pending i).Covered a → (pending j).Covered a →
      (before (pending i).sequence (pending j).sequence = true ↔ rank i < rank j))
    {slots : List (Fin tcpSlots)} {r : AckScan} (h : Scanned pending a rank slots r)
    {slot : Fin tcpSlots} (hslot : slot ∉ slots) :
    Scanned pending a rank (slots ++ [slot]) (ackSlot a r slot) := by
  have hsame : r.pending slot = pending slot := by rw [h.pending_eq, if_neg hslot]
  unfold ackSlot
  rw [hsame]
  by_cases hcovered : (pending slot).Covered a
  · have hreached := TcpSegment.not_skipped_iff.mpr hcovered
    have hupdate := (TcpSegment.acknowledge_of_covered hcovered).symm
    simp only [if_neg hreached, hupdate]
    have hpending : ∀ j, Function.update r.pending slot ((pending slot).acknowledge a) j =
        if j ∈ slots ++ [slot] then (pending j).acknowledge a else pending j := by
      intro j
      by_cases hj : j = slot
      · subst hj
        simp
      · rw [Function.update_of_ne hj, h.pending_eq]
        simp [hj]
    have hretransmitted : (r.retransmitted || (pending slot).retries != 0) = true ↔
        ∃ j ∈ slots ++ [slot], (pending j).Covered a ∧ (pending j).retries ≠ 0 := by
      rw [Bool.or_eq_true, h.retransmitted_iff, bne_iff_ne]
      simp only [List.mem_append, List.mem_singleton, or_and_right, exists_or, exists_eq_left]
      exact or_congr_right (and_iff_right hcovered).symm
    by_cases hnewest : ((pending slot).retries == 0 &&
        (!r.haveSample || before r.sample.sequence (pending slot).sequence)) = true
    · simp only [if_pos hnewest]
      rw [Bool.and_eq_true, beq_iff_eq, Bool.or_eq_true, Bool.not_eq_true'] at hnewest
      refine ⟨hpending, hretransmitted, fun hnone ↦ (by cases hnone), fun _ ↦ ?_⟩
      have hnew (hhave : r.haveSample = true) (i : Fin tcpSlots) (hicovered : (pending i).Covered a)
          (hsample : r.sample = pending i) : rank i ≤ rank slot := by
        have hbefore := hnewest.2.resolve_left (Bool.not_eq_false _ ▸ hhave)
        rw [hsample] at hbefore
        exact ((hrank i slot hicovered hcovered).mp hbefore).le
      exact ⟨slot, by simp, hcovered, hnewest.1, rfl, fun _ ↦ h.sample_newest hnew⟩
    · simp only [if_neg hnewest]
      rw [Bool.and_eq_true, beq_iff_eq, Bool.or_eq_true, Bool.not_eq_true'] at hnewest
      have hold : (pending slot).Covered a → (pending slot).retries = 0 → r.haveSample = true ∧
          ∀ i, (pending i).Covered a → r.sample = pending i → rank slot ≤ rank i := by
        intro hslotCovered hfresh
        have hhave : r.haveSample = true :=
          (Bool.not_eq_false _).mp fun hnone ↦ hnewest ⟨hfresh, Or.inl hnone⟩
        refine ⟨hhave, fun i hicovered hsample ↦ not_lt.mp fun hlt ↦ hnewest ⟨hfresh, Or.inr ?_⟩⟩
        rw [hsample]
        exact (hrank i slot hicovered hslotCovered).mpr hlt
      exact ⟨hpending, hretransmitted, (h.sample_kept hold).1, (h.sample_kept hold).2⟩
  · have hskip := not_not.mp (TcpSegment.not_skipped_iff.not.mpr hcovered)
    rw [if_pos hskip]
    have hdrop : ∀ predicate : Fin tcpSlots → Prop, ¬ predicate slot →
        ((∃ j ∈ slots ++ [slot], predicate j) ↔ ∃ j ∈ slots, predicate j) := by
      intro predicate hnot
      simp only [List.mem_append, List.mem_singleton, or_and_right, exists_or, exists_eq_left]
      exact or_iff_left hnot
    have hkept := h.sample_kept fun hslotCovered ↦ absurd hslotCovered hcovered
    refine ⟨fun j ↦ ?_, ?_, hkept.1, hkept.2⟩
    · rw [h.pending_eq]
      by_cases hj : j = slot
      · subst hj
        rw [if_neg hslot, if_pos (by simp), TcpSegment.acknowledge_of_not_covered hcovered]
      · simp [hj]
    · rw [h.retransmitted_iff, hdrop _ fun hslot ↦ hcovered hslot.1]

/-- The scan over all slots. -/
theorem scanned_ackScan (c : Tcp ρ) (a : UInt32) {rank : Fin tcpSlots → ℕ}
    (hrank : ∀ i j, (c.pending i).Covered a → (c.pending j).Covered a →
      (before (c.pending i).sequence (c.pending j).sequence = true ↔ rank i < rank j)) :
    Scanned c.pending a rank (List.finRange tcpSlots) (ackScan c a) := by
  have hnodup := List.nodup_finRange tcpSlots
  unfold ackScan
  generalize List.finRange tcpSlots = slots at hnodup ⊢
  induction slots using List.reverseRecOn with
  | nil => constructor <;> simp
  | append_singleton slots slot ih =>
    rw [List.foldl_append, List.foldl_cons, List.foldl_nil]
    rw [List.nodup_append] at hnodup
    refine (ih hnodup.1).step hrank fun hmem ↦ ?_
    exact hnodup.2.2 slot hmem slot (List.mem_singleton_self slot) rfl

/-! ## Acknowledgement -/

theorem covered_order (h : c.sender.Queue) (a : UInt32) {i j : Fin tcpSlots}
    (hi : (c.pending i).Covered a) (hj : (c.pending j).Covered a) :
    before (c.pending i).sequence (c.pending j).sequence = true ↔
      distance c.isn (c.pending i).sequence < distance c.isn (c.pending j).sequence := by
  have hnext := h.next_lt
  have hfirst := h.slot_le hi.1
  have hsecond := h.slot_le hj.1
  refine before_iff_distance ?_ ?_
  · exact (Nat.le_add_right _ _).trans_lt (hfirst.2.2.trans_lt hnext)
  · exact (Nat.le_add_right _ _).trans_lt (hsecond.2.2.trans_lt hnext)

/-- A sample is taken only when no segment that is acknowledged was sent again. -/
theorem sampled_ackScan (core : LarpCore ρ) (h : c.sender.Queue) (a : UInt32) (now : UInt64) :
    c.timing.Sampled core a now (if (ackScan c a).haveSample && !(ackScan c a).retransmitted
      then c.estimate.sample core (sampledRtt core (ackScan c a) now) else c.estimate) := by
  have hscan := scanned_ackScan c a fun i j ↦ covered_order h a
  generalize ackScan c a = r at hscan ⊢
  unfold sampledRtt
  by_cases htaken : (r.haveSample && !r.retransmitted) = true
  · rw [if_pos htaken, if_pos htaken]
    rw [Bool.and_eq_true, Bool.not_eq_true'] at htaken
    obtain ⟨i, -, hcovered, -, hsample, hleast⟩ := hscan.some htaken.1
    have honce : ∀ j, (c.pending j).Covered a → (c.pending j).retries = 0 := by
      intro j hj
      by_contra hretried
      have hagain := hscan.retransmitted_iff.mpr ⟨j, List.mem_finRange j, hj, hretried⟩
      rw [htaken.2] at hagain
      cases hagain
    rw [hsample]
    refine Timing.Sampled.sample i hcovered honce fun j hj ↦ ?_
    rw [Bool.eq_false_iff]
    intro hbefore
    have hlt := (covered_order h a hcovered hj).mp hbefore
    exact absurd (hleast j (List.mem_finRange j) hj (honce j hj)) (Nat.not_le.mpr hlt)
  · rw [if_neg htaken]
    exact Timing.Sampled.keep

theorem ackControl_timing (core : LarpCore ρ) (d : Tcp ρ) (r : AckScan) (a : UInt32) (now : UInt64) :
    (ackControl core d r a now).timing = { d.timing with
      estimate := if r.haveSample && !r.retransmitted
        then d.estimate.sample core (sampledRtt core r now) else d.estimate
      deliveredUs := now
      rate := (ackControl core d r a now).larp.rate } := by
  unfold ackControl
  cases r.haveSample && !r.retransmitted <;> rfl

theorem ack_turns (h : c.endpoint.Sound) (hlive : c.endpoint.Live) (a : UInt32) (now : UInt64) :
    Turns core c now (ack core c a now) := by
  have hqueue : c.sender.Queue := h.queue hlive
  unfold ack
  split
  · exact (Silent.of_eq rfl rfl).turns
  rename_i hrange
  rw [Bool.or_eq_true, not_or, Bool.not_eq_true, Bool.not_eq_true] at hrange
  split
  · split
    · exact (Silent.refl c).turns
    split
    · have hcounted : Silent c { c with dupacks := c.dupacks + 1 } := Silent.of_eq rfl rfl
      have hsound : ({ c with dupacks := c.dupacks + 1 } : Tcp ρ).endpoint.Sound := h
      exact (loss_turns hsound (Or.inr hlive) false nofun).of_silent hcounted
    · exact (Silent.of_eq rfl rfl).turns
  rename_i hnew
  have hpending : (ackScan c a).pending = fun i ↦ (c.pending i).acknowledge a := by
    funext j
    rw [(scanned_ackScan c a fun i j ↦ covered_order hqueue a).pending_eq,
      if_pos (List.mem_finRange j)]
  have hsampled := sampled_ackScan core hqueue a now
  have hacked : (acked c (ackScan c a) a now).timing = { c.timing with
      una := a, pending := fun i ↦ (c.pending i).acknowledge a, timerUs := now } := by
    rw [← hpending]
    rfl
  refine ⟨[], ?_, ?_⟩
  · exact congrArg Endpoint.context (ackControl_endpoint core (acked c (ackScan c a) a now) _ a now)
  simp only
  rw [ackControl_timing, hacked, List.filter_nil]
  refine Turn.acknowledge a _ _ hnew hrange.1 hrange.2 hsampled (Or.inr ⟨c.larp, ?_⟩)
  unfold ackControl
  cases (ackScan c a).haveSample && !(ackScan c a).retransmitted <;> exact ⟨_, rfl, rfl⟩

/-! ## Input -/

theorem acceptedInput_turns (h : c.endpoint.Sound) (hlive : c.endpoint.Live) (b : Memory) (header : ℕ)
    (seq a : UInt32) (flags : UInt8) (length : UInt32) (now : UInt64) :
    Turns core c now (acceptedInput core c b header seq a flags length now) := by
  have hwindow : Silent c (windowUpdate c b seq a).1 := Silent.of_eq rfl rfl
  have hsound : (windowUpdate c b seq a).1.endpoint.Sound := h.of_frame rfl (Or.inl rfl)
  have hlive' : (windowUpdate c b seq a).1.endpoint.Live := hlive
  unfold acceptedInput
  generalize windowUpdate c b seq a = r at hwindow hsound hlive' ⊢
  obtain ⟨d, changed⟩ := r
  simp only at hwindow hsound hlive' ⊢
  have hacked : Turns core c now (if a ≠ d.una ∨ (length = 0 ∧ !has flags tcpFin ∧ !changed)
      then ack core d a now else d) := by
    split
    · exact (ack_turns hsound hlive' a now).of_silent hwindow
    · exact hwindow.turns
  split
  · exact hacked.silent (store_silent _ _ _ _ _)
  · exact hacked

theorem synSentInput_turns (h : c.endpoint.Sound) (hsyn : c.state = .synSent) (b : Memory) (header : ℕ)
    (seq a : UInt32) (flags : UInt8) (length : UInt32) (now : UInt64) :
    Turns core c now (synSentInput core c b header seq a flags length now) := by
  unfold synSentInput
  split
  · exact (tcpAbort_silent c _).turns
  split
  · exact (Silent.refl c).turns
  rename_i hanswer
  simp only [not_or, not_not] at hanswer
  split
  · exact (Silent.refl c).turns
  rename_i mss _
  obtain ⟨-, hnext, rfl, -⟩ := hanswer
  refine ⟨[], ?_, ?_⟩
  · exact congrArg Endpoint.context
      (handshakeTimer_endpoint core (answered c b seq c.next mss) (c.pending 0) now)
  rw [List.filter_nil]
  have hempty : ∀ i, i ≠ 0 → (c.pending i).used = false := fun i hne ↦
    Bool.eq_false_iff.mpr fun hused ↦ hne ((h.opening hsyn).syn i hused).1
  have hopen : c.una ≠ c.next := by
    have huna : c.una = c.isn := (h.opening hsyn).una_eq
    rw [huna, hnext]
    exact fun hzero ↦ absurd (UInt32.left_eq_add.mp hzero) (by decide)
  unfold handshakeTimer
  split
  · exact Turn.establish _ hopen hempty (if_pos ‹_›).symm
  · exact Turn.establish _ hopen hempty (if_neg ‹_›).symm

theorem tcpInput_turns (h : c.endpoint.Sound) (b : Memory) (size : ℕ) (now : UInt64) :
    Turns core c now (tcpInput core c b size now) := by
  by_cases hsyn : c.state = .synSent
  · unfold tcpInput
    split
    · exact (Silent.refl c).turns
    · exact synSentInput_turns h hsyn b _ _ _ _ _ now
  · exact tcpInput_cases core hsyn b size now (Turns core c now) (Silent.refl c).turns
      (fun _ ↦ (Silent.of_eq rfl rfl).turns) (fun _ _ _ ↦ (Silent.of_eq rfl rfl).turns)
      fun haccepts ↦ acceptedInput_turns h haccepts.live b _ _ _ _ _ now

/-! ## Tick -/

theorem sendSyn_turns (h : c.endpoint.Sound) (hsyn : c.state = .synSent) (now : UInt64) :
    Turns core c now (sendSyn core c now) := by
  unfold sendSyn
  split
  · exact (Silent.refl c).turns
  rename_i hnext
  rw [not_not] at hnext
  have hunused : ∀ j, (c.pending j).used = false := by
    intro j
    rw [Bool.eq_false_iff]
    intro hused
    have hsent : c.next = c.isn + 1 := ((h.opening hsyn).syn j hused).2.2
    have hzero : (1 : UInt32) = 0 := UInt32.left_eq_add.mp (hnext.symm.trans hsent)
    exact absurd hzero (by decide)
  have hcases := transmit_cases core c { sequence := c.isn, flags := tcpSyn, used := true } now
  generalize transmit core c _ now = r at hcases ⊢
  obtain ⟨d, s, sent⟩ := r
  simp only at hcases ⊢
  rcases hcases with ⟨rfl, hsilent⟩ | ⟨rfl, rfl, htiming, e, hcontext, he⟩
  · exact hsilent.turns
  · have he := he (by decide)
    refine ⟨[e], hcontext, ?_⟩
    rw [List.filter_cons_of_pos he.transmitted, List.filter_nil]
    have hstored : ({ d with
        pending := Function.update d.pending 0
          { sequence := c.isn, flags := tcpSyn, used := true, sentUs := now }
        next := d.next + 1
        timerUs := now } : Tcp ρ).timing = { d.timing with
          pending := Function.update d.timing.pending 0
            { sequence := c.isn, flags := tcpSyn, used := true, sentUs := now }
          next := d.timing.next + 1
          timerUs := now } := rfl
    have happend : Turn core c.timing now (c.timing.append core 0
        { sequence := c.isn, flags := tcpSyn, used := true } now true c.deliveredUs c.flightUs) [e] :=
      Turn.append 0 _ true c.deliveredUs c.flightUs e (hunused 0) rfl hnext.symm rfl (Nat.zero_le _)
        (Or.inl rfl) (Or.inl rfl) ⟨Or.inl rfl, Or.inl rfl⟩ (iff_of_true rfl hunused)
        (fun hlength ↦ absurd rfl hlength) he
    have hsize : sequenceSize { sequence := c.isn, flags := tcpSyn, used := true } = 1 := by
      have hflags : has tcpSyn (tcpSyn ||| tcpFin) = true := by decide
      simp only [sequenceSize, hflags, if_true, UInt32.zero_add]
    unfold Timing.append at happend
    rw [hsize] at happend
    rw [if_pos rfl, hstored, htiming]
    exact happend

theorem oldest_isNone_iff (h : c.sender.Queue) :
    (oldest c).isNone = true ↔ ∀ j, (c.pending j).used = false := by
  rw [Option.isNone_iff_eq_none]
  constructor
  · intro hnone j
    rw [Bool.eq_false_iff]
    intro hused
    obtain ⟨i, hold, -⟩ := exists_oldest h (una_ne_next h hused)
    rw [hnone] at hold
    cases hold
  · exact oldest_eq_none

theorem startFlight_timing (c : Tcp ρ) (now : UInt64) :
    ∃ deliveredUs flightUs, (startFlight c now).timing = { c.timing with
        deliveredUs := deliveredUs, flightUs := flightUs } ∧
      ((deliveredUs = c.deliveredUs ∧ flightUs = c.flightUs) ∨
        (deliveredUs = now ∧ flightUs = now)) := by
  refine ⟨if inflight c = 0 then now else c.deliveredUs, if inflight c = 0 then now else c.flightUs,
    rfl, ?_⟩
  by_cases hidle : inflight c = 0
  · rw [if_pos hidle, if_pos hidle]
    exact Or.inr ⟨rfl, rfl⟩
  · rw [if_neg hidle, if_neg hidle]
    exact Or.inl ⟨rfl, rfl⟩

theorem enqueue_timing {s : TcpSegment} {slot : Fin tcpSlots} {idle : Bool} {deliveredUs flightUs : UInt64}
    (htiming : d.timing = { c.timing with
      nextSendUs := c.timing.paced core now s.length
      deliveredUs := deliveredUs
      flightUs := flightUs })
    (hflags : s.flags = tcpAck ||| tcpPsh ∨ s.flags = tcpAck ||| tcpFin) :
    (enqueue d slot { s with sentUs := now } idle now).timing =
      c.timing.append core slot s now idle deliveredUs flightUs := by
  have hsize : d.next + s.length + (if has s.flags tcpFin then 1 else 0) =
      d.timing.next + sequenceSize s := by
    have hfin : has s.flags tcpFin = has s.flags (tcpSyn ||| tcpFin) := by
      rcases hflags with hflags | hflags <;> rw [hflags] <;> decide
    rw [hfin, UInt32.add_assoc]
    rfl
  have hstored : (enqueue d slot { s with sentUs := now } idle now).timing = { d.timing with
      next := d.next + s.length + (if has s.flags tcpFin then 1 else 0)
      pending := Function.update d.timing.pending slot { s with sentUs := now }
      timerUs := if idle then now else d.timing.timerUs } := rfl
  rw [hstored, hsize, htiming]
  rfl

theorem sendSegment_turns (h : c.sender.Queue) {slot : Fin tcpSlots}
    (hslot : (c.pending slot).used = false) (hgate : c.nextSendUs ≤ now) :
    Turns core c now (sendSegment core (startFlight c now) slot (oldest c).isNone now) := by
  obtain ⟨deliveredUs, flightUs, hstart, hstamps⟩ := startFlight_timing c now
  have hsame : (startFlight c now).context = c.context := rfl
  have hwait : Turns core c now (startFlight c now) := by
    refine ⟨[], rfl, ?_⟩
    rw [hstart]
    rcases hstamps with ⟨rfl, rfl⟩ | ⟨rfl, rfl⟩
    · exact Turn.keep
    · exact Turn.idle
  have hnext : (nextSegment (startFlight c now)).sequence = c.next := rfl
  have hdelivered : (nextSegment (startFlight c now)).deliveredUs = deliveredUs :=
    congrArg Timing.deliveredUs hstart
  have hflight : (nextSegment (startFlight c now)).flightUs = flightUs :=
    congrArg Timing.flightUs hstart
  unfold sendSegment
  simp only
  split
  · exact hwait
  generalize hs : ({ nextSegment (startFlight c now) with
    flags := if (nextSegment (startFlight c now)).length = 0 then tcpAck ||| tcpFin
      else (nextSegment (startFlight c now)).flags } : TcpSegment) = s
  have hflags : s.flags = tcpAck ||| tcpPsh ∨ s.flags = tcpAck ||| tcpFin := by
    subst hs
    dsimp only
    split
    · exact Or.inr rfl
    · exact Or.inl rfl
  have hregular : has s.flags (tcpSyn ||| tcpPsh ||| tcpFin) = true := by
    rcases hflags with hflags | hflags <;> rw [hflags] <;> decide
  have hcases := transmit_cases core (startFlight c now) s now
  generalize transmit core (startFlight c now) s now = r at hcases ⊢
  obtain ⟨d, s', sent⟩ := r
  simp only at hcases ⊢
  rcases hcases with ⟨rfl, hsilent⟩ | ⟨rfl, rfl, htiming, e, hcontext, he⟩
  · exact hwait.silent hsilent
  · have he := he hregular
    refine ⟨[e], hcontext, ?_⟩
    have hpaced : (startFlight c now).timing.paced core now s.length = c.timing.paced core now s.length := by
      rw [hstart]
      rfl
    rw [hpaced, hstart] at htiming
    rw [List.filter_cons_of_pos he.transmitted, List.filter_nil, if_pos rfl,
      enqueue_timing htiming hflags]
    have hfields : s.used = true ∧ s.sequence = c.next ∧ s.retries = 0 ∧
        s.deliveredUs = deliveredUs ∧ s.flightUs = flightUs := by
      subst hs
      exact ⟨rfl, rfl, rfl, hdelivered, hflight⟩
    have hlength : s.length.toNat ≤ 65535 := by
      have hmss := c.mss.toNat_lt
      have hbound : s.length.toNat ≤ c.mss.toUInt32.toNat := by
        subst hs
        exact (toNat_min32 _ _).trans_le (Nat.min_le_left _ _)
      rw [UInt16.toNat_toUInt32] at hbound
      omega
    exact Turn.append slot s _ deliveredUs flightUs e hslot hfields.1 hfields.2.1 hfields.2.2.1
      hlength (hstamps.imp And.left And.left) (hstamps.imp And.right And.right)
      ⟨Or.inr hfields.2.2.2.1, Or.inr hfields.2.2.2.2⟩ (oldest_isNone_iff h) (fun _ ↦ hgate) he

theorem sendNext_turns (h : c.sender.Queue) (now : UInt64) : Turns core c now (sendNext core c now) := by
  unfold sendNext
  split
  · exact (Silent.refl c).turns
  rename_i hready
  rw [not_or, not_or] at hready
  split
  · exact (Silent.refl c).turns
  split
  · exact (Silent.refl c).turns
  rename_i slot hslot
  exact sendSegment_turns h (freeSlot_unused hslot) (UInt64.not_lt.mp hready.2.1)

theorem tcpTick_turns (h : c.endpoint.Sound) (now : UInt64) :
    Turns core c now (tcpTick core c now) := by
  have hsilent := acknowledge_silent c
  have hsound : (acknowledge c).endpoint.Sound := by
    have hacknowledge := acknowledge_endpoint c
    exact h.of_frame hacknowledge.sender_eq (Or.inl hacknowledge.state_eq)
  unfold tcpTick
  split
  · exact (Silent.refl c).turns
  rename_i hrest
  split
  · exact (tcpAbort_silent c _).turns
  have hstate : (acknowledge c).state = c.state := (acknowledge_endpoint c).state_eq
  rw [← hstate] at hrest
  generalize acknowledge c = d at hsilent hsound hrest ⊢
  simp only
  split
  · exact hsilent.turns
  rename_i hdone
  have hopen : d.state = .synSent ∨ d.endpoint.Connected := by
    rw [not_or] at hrest
    cases hcase : d.state <;> simp_all [Endpoint.Connected]
  split
  · rename_i hdue
    rw [timerDue, Bool.and_eq_true, decide_eq_true_eq] at hdue
    exact (loss_turns hsound (hopen.imp_right Endpoint.Connected.live) true
      fun _ ↦ hdue.2).of_silent hsilent
  split
  · rename_i hsyn
    exact (sendSyn_turns hsound hsyn now).of_silent hsilent
  rename_i hsyn
  split
  · exact (hsilent.trans (Silent.of_eq rfl rfl)).turns
  split
  · exact (hsilent.trans (probe_silent d now)).turns
  · exact (sendNext_turns (hsound.queue (hopen.resolve_left hsyn).live) now).of_silent hsilent

/-! ## Calls -/

/-- The time a call is made. -/
def Event.time : Event → UInt64
  | .input _ _ time => time
  | .tick time => time

theorem step_turns (core : LarpCore ρ) (h : c.endpoint.Sound) (event : Event) :
    Turns core c event.time (step core c event) := by
  cases event with
  | input b size now => exact tcpInput_turns h b size now
  | tick now => exact tcpTick_turns h now

end JordyOS.Transport
