import JordyOS.Transport.Finality
import JordyOS.Transport.Timeline
import Mathlib.Algebra.Order.Floor.Div

/-!
# Pacing

After a segment with payload the gate `next_send_us` closes for the time the segment takes at the
controller's rate.  Every segment with payload waits for the gate, whether it is new, retransmitted by
the timer or retransmitted after duplicate acknowledgements, so missed polls earn no burst.
-/

namespace JordyOS.Transport

open Machine Net

variable {ρ : Type} (core : LarpCore ρ)

/-- What pacing relies on in the controller. -/
structure PacingCore : Prop where
  max_eq : ∀ a b, (core.max a b).toNat = max a.toNat b.toNat
  div_eq : ∀ a b, b ≠ 0 → (core.div a b).toNat = a.toNat / b.toNat
  start_rate : ∀ now, 0 < (core.start 125000000 125000 0 500 now).rate.toNat ∧
    (core.start 125000000 125000 0 500 now).rate.toNat < 2 ^ 63
  update_rate : ∀ model f, 0 < model.rate.toNat ∧ model.rate.toNat < 2 ^ 63 →
    0 < (core.update model f).rate.toNat ∧ (core.update model f).rate.toNat < 2 ^ 63

namespace Transmission

/-- The time a transmission takes at the rate of its moment, in microseconds and rounded up. -/
def gap (x : Transmission) : ℕ := max 1 ((x.segment.length * 1000000) ⌈/⌉ x.rate.toNat)

/-- The end of that time. -/
def gate (x : Transmission) : ℕ := x.time.toNat + x.gap

def hasPayload (x : Transmission) : Bool := decide (0 < x.segment.length)

end Transmission

/-! ## The gate -/

variable {core}

theorem toNat_paced (hcore : PacingCore core) {m : Timing} {now : UInt64} {s : TcpSegment} {e : Emission}
    (hrate : 0 < m.rate.toNat ∧ m.rate.toNat < 2 ^ 63) (he : e.Transmits s)
    (hlength : s.length ≠ 0) (hgate : (⟨now, m.rate, e⟩ : Transmission).gate < 2 ^ 64) :
    (m.paced core now s.length).toNat = (⟨now, m.rate, e⟩ : Transmission).gate := by
  obtain ⟨hpos, hlt⟩ := hrate
  have hword := s.length.toNat_lt
  have hne : m.rate ≠ 0 := by
    rintro hzero
    rw [hzero] at hpos
    exact absurd hpos (by decide)
  have hdividend : (s.length.toUInt64 * 1000000 + m.rate - 1).toNat =
      e.length * 1000000 + m.rate.toNat - 1 := by
    have hmillion : (1000000 : UInt64).toNat = 1000000 := rfl
    have hproduct : (s.length.toUInt64 * 1000000).toNat = s.length.toNat * 1000000 := by
      rw [UInt64.toNat_mul, UInt32.toNat_toUInt64, hmillion, Nat.mod_eq_of_lt (by omega)]
    have hsum : (s.length.toUInt64 * 1000000 + m.rate).toNat =
        s.length.toNat * 1000000 + m.rate.toNat := by
      rw [UInt64.toNat_add, hproduct, Nat.mod_eq_of_lt (by omega)]
    have hone : (1 : UInt64).toNat = 1 := rfl
    rw [UInt64.toNat_sub_of_le _ _ (UInt64.le_iff_toNat_le.mpr (by omega)), hsum, he.length_eq, hone]
  have hgap : (core.max 1 (core.div (s.length.toUInt64 * 1000000 + m.rate - 1) m.rate)).toNat =
      (⟨now, m.rate, e⟩ : Transmission).gap := by
    rw [hcore.max_eq, hcore.div_eq _ _ hne, hdividend, Transmission.gap,
      Nat.ceilDiv_eq_add_pred_div]
    rfl
  unfold Timing.paced
  rw [if_pos hlength, UInt64.toNat_add, hgap, Nat.mod_eq_of_lt]
  · rfl
  · exact hgate

/-- The gate of a transmission is behind the gate of the connection, or behind a later transmission. -/
def Waits (sent : List Transmission) (nextSendUs : UInt64) (x : Transmission) : Prop :=
  x.gate < 2 ^ 64 → x.gate ≤ nextSendUs.toNat ∨ ∃ y ∈ sent, x.gate ≤ y.time.toNat

/-- The invariant of a paced run. -/
structure PacedRun (sent : List Transmission) (m : Timing) : Prop where
  rate : 0 < m.rate.toNat ∧ m.rate.toNat < 2 ^ 63
  apart : (sent.filter Transmission.hasPayload).Pairwise fun x y ↦
    x.gate < 2 ^ 64 → x.gate ≤ y.time.toNat
  waits : ∀ x ∈ sent.filter Transmission.hasPayload, Waits sent m.nextSendUs x

theorem Timing.Controlled.rate (hcore : PacingCore core) {m : Timing} {rate : UInt64}
    (h : m.Controlled core rate) (hm : 0 < m.rate.toNat ∧ m.rate.toNat < 2 ^ 63) :
    0 < rate.toNat ∧ rate.toNat < 2 ^ 63 := by
  rcases h with rfl | ⟨model, f, hmodel, rfl⟩
  · exact hm
  · exact hcore.update_rate model f (hmodel ▸ hm)

/-- A call that sends nothing leaves the gate alone. -/
theorem PacedRun.quiet {sent : List Transmission} {m n : Timing} (h : PacedRun sent m)
    (hgate : n.nextSendUs = m.nextSendUs) (hrate : 0 < n.rate.toNat ∧ n.rate.toNat < 2 ^ 63) :
    PacedRun (sent ++ []) n := by
  rw [List.append_nil]
  exact ⟨hrate, h.apart, by rw [hgate]; exact h.waits⟩

/-- A transmission passes the gate and closes it again. -/
theorem PacedRun.send (hcore : PacingCore core) {sent : List Transmission} {m n : Timing}
    {now : UInt64} {s : TcpSegment} {e : Emission} (h : PacedRun sent m)
    (htime : ∀ x ∈ sent, x.time ≤ now) (hopen : s.length ≠ 0 → m.nextSendUs ≤ now)
    (he : e.Transmits s) (hgate : n.nextSendUs = m.paced core now s.length)
    (hrate : 0 < n.rate.toNat ∧ n.rate.toNat < 2 ^ 63) :
    PacedRun (sent ++ [⟨now, m.rate, e⟩]) n := by
  by_cases hlength : s.length = 0
  · have hbare : Transmission.hasPayload ⟨now, m.rate, e⟩ = false := by
      have hzero : e.length = 0 := by rw [he.length_eq, hlength, UInt32.toNat_zero]
      simp [Transmission.hasPayload, hzero]
    have hsame : n.nextSendUs = m.nextSendUs := by
      rw [hgate, Timing.paced, if_neg (not_not.mpr hlength)]
    refine ⟨hrate, ?_, ?_⟩
    · rw [List.filter_append, List.filter_cons_of_neg (by simp [hbare]), List.filter_nil,
        List.append_nil]
      exact h.apart
    · intro x hx hwrap
      rw [List.filter_append, List.filter_cons_of_neg (by simp [hbare]), List.filter_nil,
        List.append_nil] at hx
      rw [hsame]
      exact (h.waits x hx hwrap).imp_right fun ⟨y, hy, hle⟩ ↦ ⟨y, List.mem_append_left _ hy, hle⟩
  · have hpayload : Transmission.hasPayload ⟨now, m.rate, e⟩ = true := by
      have hpos : 0 < e.length := by
        rw [he.length_eq, Nat.pos_iff_ne_zero]
        exact fun hzero ↦ hlength (UInt32.toNat_inj.mp hzero)
      simp [Transmission.hasPayload, hpos]
    have hpassed : ∀ x ∈ sent.filter Transmission.hasPayload, x.gate < 2 ^ 64 → x.gate ≤ now.toNat := by
      intro x hx hwrap
      rcases h.waits x hx hwrap with hle | ⟨y, hy, hle⟩
      · exact hle.trans (UInt64.le_iff_toNat_le.mp (hopen hlength))
      · exact hle.trans (UInt64.le_iff_toNat_le.mp (htime y hy))
    refine ⟨hrate, ?_, ?_⟩
    · rw [List.filter_append, List.filter_cons_of_pos hpayload, List.filter_nil, List.pairwise_append]
      refine ⟨h.apart, List.pairwise_singleton _ _, ?_⟩
      intro x hx y hy
      rw [List.mem_singleton.mp hy]
      exact hpassed x hx
    · intro x hx hwrap
      rw [List.filter_append, List.filter_cons_of_pos hpayload, List.filter_nil] at hx
      rcases List.mem_append.mp hx with hx | hx
      · exact Or.inr ⟨_, List.mem_append_right _ (List.mem_singleton_self _), hpassed x hx hwrap⟩
      · rw [List.mem_singleton.mp hx] at hwrap ⊢
        left
        rw [hgate, toNat_paced hcore h.rate he hlength hwrap]

theorem PacedRun.turn (hcore : PacingCore core) {sent : List Transmission} {m n : Timing}
    {now : UInt64} {new : List Emission} (h : PacedRun sent m) (htime : ∀ x ∈ sent, x.time ≤ now)
    (hturn : Turn core m now n new) :
    PacedRun (sent ++ new.map fun e ↦ ⟨now, m.rate, e⟩) n := by
  cases hturn with
  | keep => exact h.quiet rfl h.rate
  | idle => exact h.quiet rfl h.rate
  | resend i timeout rate e hused hfirst hretries hdue hgate hrate he =>
    exact h.send hcore htime hgate he rfl (hrate.rate hcore h.rate)
  | acknowledge a estimate rate hnew hlow hhigh hestimate hrate =>
    exact h.quiet rfl (hrate.rate hcore h.rate)
  | establish estimate => exact h.quiet rfl h.rate
  | append slot s idle deliveredUs flightUs e hunused hused hsequence hretries hlength hdelivered
      hflight hstamps hidle hgate he =>
    exact h.send hcore htime hgate he rfl h.rate

/-! ## Runs -/

variable (core)

theorem timeline_of_failed {c : Tcp ρ} (h : c.state = .failed) (events : List Event) :
    timeline core c events = [] := by
  induction events with
  | nil => rfl
  | cons event events ih =>
    have hstep := step_of_failed core h event
    have hnone : transmissionsOf core c event = [] := by
      rw [transmissionsOf, hstep, transmissions_of_context (List.nil_append c.context).symm]
      rfl
    rw [timeline, hnone, hstep, ih, List.nil_append]

/-- A request is refused, or the controller starts with the connection. -/
theorem Request.connect_cases (r : Request) :
    (r.connect core).state = .failed ∨
      (r.connect core).larp = core.start 125000000 125000 0 500 r.now := by
  unfold Request.connect tcpStart
  dsimp only
  split
  · exact Or.inl rfl
  · exact Or.inr rfl

/-- Between two segments with payload lies at least the time the first one takes at the rate of its
moment, unless the end of that time does not fit into the clock. -/
theorem paced_of_run (hcore : PacingCore core) (r : Request) (events : List Event)
    (hclock : Clocked events) :
    ((timeline core (r.connect core) events).filter Transmission.hasPayload).Pairwise fun x y ↦
      x.gate < 2 ^ 64 → x.gate ≤ y.time.toNat := by
  rcases r.connect_cases core with hfailed | hlarp
  · rw [timeline_of_failed core hfailed]
    exact List.Pairwise.nil
  · have hrate : (r.connect core).timing.rate = (core.start 125000000 125000 0 500 r.now).rate :=
      congrArg LarpModel.rate hlarp
    have hstart : PacedRun [] (r.connect core).timing := by
      refine ⟨?_, List.Pairwise.nil, by simp⟩
      rw [hrate]
      exact hcore.start_rate r.now
    have hrun : PacedRun (timeline core (r.connect core) events)
        (run (step core) (r.connect core) events).timing :=
      timeline_induction (r.connect_sound core) hclock (fun _ sent d ↦ PacedRun sent d.timing) hstart
        fun _ event d _ _ _ htime hturn h ↦ h.turn hcore htime hturn
    exact hrun.apart

/-! ## Two segments -/

theorem pacingCore_steadyCore : PacingCore steadyCore where
  max_eq a b := by
    change (if a < b then b else a).toNat = max a.toNat b.toNat
    split
    · rename_i hlt
      rw [UInt64.lt_iff_toNat_lt] at hlt
      omega
    · rename_i hle
      rw [UInt64.lt_iff_toNat_lt] at hle
      omega
  div_eq a b _ := UInt64.toNat_div a b
  start_rate _ := by
    change 0 < (125000000 : UInt64).toNat ∧ (125000000 : UInt64).toNat < 2 ^ 63
    decide
  update_rate _ _ h := h

def twoSegments : Request where
  localPort := 1
  peerPort := 2
  isn := 100
  data := some Memory.zero
  size := 1000
  now := 1000
  emit := fun _ _ _ ↦ true

/-- The second call finds the gate closed, and the last one a segment that was lost. -/
def earlyTicks : List Event :=
  [.tick 2000, .input (peerSegment 500 101 (tcpSyn ||| tcpAck) 4096 []) 20 3000,
    .tick 4000, .tick 4001, .tick 9000, .tick 3000000]

theorem clocked_earlyTicks : Clocked earlyTicks := by
  unfold Clocked earlyTicks
  decide

theorem paced_of_run_earlyTicks :
    let sent := (timeline steadyCore (twoSegments.connect steadyCore) earlyTicks).filter Transmission.hasPayload
    (sent.Pairwise fun x y ↦ x.gate < 2 ^ 64 → x.gate ≤ y.time.toNat) ∧
      sent.map (fun x ↦ (x.time.toNat, x.gate)) = [(4000, 4005), (9000, 9004), (3000000, 3000005)] :=
  ⟨paced_of_run steadyCore pacingCore_steadyCore twoSegments earlyTicks clocked_earlyTicks, by decide +kernel⟩

/-! ## The end of the clock -/

/-- The clock wraps a few milliseconds later. -/
def lateRequest : Request := { twoSegments with now := 18446744073709541616 }

/-- The segments leave in the last two microseconds but one. -/
def lateTicks : List Event :=
  [.tick 18446744073709542616,
    .input (peerSegment 500 101 (tcpSyn ||| tcpAck) 4096 []) 20 18446744073709543616,
    .tick 18446744073709551613, .tick 18446744073709551614]

theorem clocked_lateTicks : Clocked lateTicks := by
  unfold Clocked lateTicks
  decide

/-- The gate wraps with the clock, and the second segment leaves one microsecond after the first. -/
theorem not_paced_lateTicks :
    PacingCore steadyCore ∧ Clocked lateTicks ∧
      ¬ ((timeline steadyCore (lateRequest.connect steadyCore) lateTicks).filter
        Transmission.hasPayload).Pairwise fun x y ↦ x.gate ≤ y.time.toNat := by
  refine ⟨pacingCore_steadyCore, clocked_lateTicks, ?_⟩
  decide +kernel

end JordyOS.Transport
