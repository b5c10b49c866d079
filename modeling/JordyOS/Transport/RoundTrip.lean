import JordyOS.Transport.Download
import JordyOS.Transport.Pacing
import JordyOS.Transport.Retransmission

/-!
# The round-trip estimate

The smoothed round-trip time and the timeout derived from it.  The words of the code agree with exact
arithmetic: the estimate stays below a minute, and the time stamps a sample is taken from lie behind
the clock.  A sample is taken only when everything newly acknowledged was sent exactly once.
-/

namespace JordyOS.Transport

open Machine Net

variable {ρ : Type} {core : LarpCore ρ}

/-- What the estimate relies on in the controller's helpers. -/
structure EstimateCore (core : LarpCore ρ) : Prop where
  min_eq : ∀ a b, (core.min a b).toNat = min a.toNat b.toNat
  max_eq : ∀ a b, (core.max a b).toNat = max a.toNat b.toNat

/-! ## The estimate in exact arithmetic -/

namespace Exact

/-- The distance between the estimate and a sample. -/
def difference (srtt rtt : ℕ) : ℕ := if srtt > rtt then srtt - rtt else rtt - srtt

/-- The deviation after a sample. -/
def rttvar (srtt rttvar rtt : ℕ) : ℕ :=
  if srtt = 0 then rtt / 2 else (3 * rttvar + difference srtt rtt) / 4

/-- The estimate after a sample. -/
def srtt (srtt rtt : ℕ) : ℕ := if srtt = 0 then rtt else (7 * srtt + rtt) / 8

/-- The timeout that goes with an estimate. -/
def rto (srtt rttvar : ℕ) : ℕ := min 60000000 (max 1000000 (srtt + max 1000 (4 * rttvar)))

/-- The time between a transmission and its acknowledgement, at least a microsecond and at most a
minute. -/
def rtt (now sent : ℕ) : ℕ := max 1 (min (now - sent) 60000000)

theorem difference_le {a b : ℕ} (ha : a ≤ 60000000) (hb : b ≤ 60000000) : difference a b ≤ 60000000 := by
  unfold difference
  split <;> omega

theorem rttvar_le {a v b : ℕ} (ha : a ≤ 60000000) (hv : v ≤ 60000000) (hb : b ≤ 60000000) :
    rttvar a v b ≤ 60000000 := by
  have hdifference := difference_le ha hb
  unfold rttvar
  split <;> omega

theorem srtt_le {a b : ℕ} (ha : a ≤ 60000000) (hb : b ≤ 60000000) : srtt a b ≤ 60000000 := by
  unfold srtt
  split <;> omega

theorem rto_bounds (a v : ℕ) : 1000000 ≤ rto a v ∧ rto a v ≤ 60000000 := by
  unfold rto
  omega

end Exact

/-! ## The estimate of the code -/

namespace Estimate

/-- The estimate and the timeout are below a minute. -/
structure Bounded (e : Estimate) : Prop where
  srtt_le : e.srttUs.toNat ≤ 60000000
  rttvar_le : e.rttvarUs.toNat ≤ 60000000
  rto_le : e.rtoUs.toNat ≤ 60000000

/-- No operation of `rtt_sample` wraps, in the order the code performs them. -/
structure Fits (e : Estimate) (rtt : UInt32) : Prop where
  triple : 3 * e.rttvarUs.toNat < 2 ^ 32
  deviation : 3 * e.rttvarUs.toNat + Exact.difference e.srttUs.toNat rtt.toNat < 2 ^ 32
  sevenfold : 7 * e.srttUs.toNat < 2 ^ 32
  average : 7 * e.srttUs.toNat + rtt.toNat < 2 ^ 32
  fourfold : 4 * Exact.rttvar e.srttUs.toNat e.rttvarUs.toNat rtt.toNat < 2 ^ 64
  timeout : Exact.srtt e.srttUs.toNat rtt.toNat +
    max 1000 (4 * Exact.rttvar e.srttUs.toNat e.rttvarUs.toNat rtt.toNat) < 2 ^ 64

theorem Bounded.fits {e : Estimate} (h : e.Bounded) {rtt : UInt32} (hrtt : rtt.toNat ≤ 60000000) :
    e.Fits rtt := by
  have hdifference := Exact.difference_le h.srtt_le hrtt
  have hrttvar := Exact.rttvar_le h.srtt_le h.rttvar_le hrtt
  have hsrtt := Exact.srtt_le h.srtt_le hrtt
  have hbefore := h.srtt_le
  have hdeviation := h.rttvar_le
  constructor <;> omega

theorem toNat_difference (a b : UInt32) :
    (if a > b then a - b else b - a).toNat = Exact.difference a.toNat b.toNat := by
  unfold Exact.difference
  by_cases h : a > b
  · have hlt := UInt32.lt_iff_toNat_lt.mp h
    rw [if_pos h, if_pos hlt, UInt32.toNat_sub_of_le _ _ (UInt32.le_iff_toNat_le.mpr hlt.le)]
  · have hle := UInt32.not_lt.mp h
    rw [if_neg h, if_neg (Nat.not_lt.mpr (UInt32.le_iff_toNat_le.mp hle)),
      UInt32.toNat_sub_of_le _ _ hle]

/-- The sample as `rtt_sample` uses it. -/
theorem toNat_round (rtt : UInt32) : (if rtt = 0 then 1 else rtt).toNat = max 1 rtt.toNat := by
  by_cases h : rtt = 0
  · rw [if_pos h, h]
    rfl
  · have hpos : rtt.toNat ≠ 0 := fun hzero ↦ h (UInt32.toNat_inj.mp hzero)
    rw [if_neg h]
    omega

theorem toNat_srtt {srtt rtt : UInt32} (h : srtt.toNat ≤ 60000000) (hrtt : rtt.toNat ≤ 60000000) :
    (if srtt = 0 then rtt else (7 * srtt + rtt) / 8).toNat = Exact.srtt srtt.toNat rtt.toNat := by
  have hseven : (7 : UInt32).toNat = 7 := rfl
  have height : (8 : UInt32).toNat = 8 := rfl
  have hzero : srtt = 0 ↔ srtt.toNat = 0 := UInt32.toNat_inj.symm
  have hproduct : (7 * srtt).toNat = 7 * srtt.toNat := by
    rw [UInt32.toNat_mul, hseven, Nat.mod_eq_of_lt (by omega)]
  unfold Exact.srtt
  by_cases h0 : srtt = 0
  · rw [if_pos h0, if_pos (hzero.mp h0)]
  · rw [if_neg h0, if_neg (hzero.not.mp h0), UInt32.toNat_div, UInt32.toNat_add, hproduct, height,
      Nat.mod_eq_of_lt (by omega)]

theorem toNat_rttvar {srtt rttvar rtt : UInt32} (h : srtt.toNat ≤ 60000000)
    (hrttvar : rttvar.toNat ≤ 60000000) (hrtt : rtt.toNat ≤ 60000000) :
    (if srtt = 0 then rtt / 2
      else (3 * rttvar + (if srtt > rtt then srtt - rtt else rtt - srtt)) / 4).toNat =
      Exact.rttvar srtt.toNat rttvar.toNat rtt.toNat := by
  have htwo : (2 : UInt32).toNat = 2 := rfl
  have hthree : (3 : UInt32).toNat = 3 := rfl
  have hfour : (4 : UInt32).toNat = 4 := rfl
  have hzero : srtt = 0 ↔ srtt.toNat = 0 := UInt32.toNat_inj.symm
  have hdifference := Exact.difference_le h hrtt
  have hproduct : (3 * rttvar).toNat = 3 * rttvar.toNat := by
    rw [UInt32.toNat_mul, hthree, Nat.mod_eq_of_lt (by omega)]
  unfold Exact.rttvar
  by_cases h0 : srtt = 0
  · rw [if_pos h0, if_pos (hzero.mp h0), UInt32.toNat_div, htwo]
  · rw [if_neg h0, if_neg (hzero.not.mp h0), UInt32.toNat_div, UInt32.toNat_add, hproduct, hfour,
      toNat_difference, Nat.mod_eq_of_lt (by omega)]

theorem toNat_rto (hcore : EstimateCore core) {srtt rttvar : UInt32} :
    (core.min 60000000 (core.max 1000000
      (srtt.toUInt64 + core.max 1000 (4 * rttvar.toUInt64)))).toUInt32.toNat =
      Exact.rto srtt.toNat rttvar.toNat := by
  have hsrtt := srtt.toNat_lt
  have hrttvar := rttvar.toNat_lt
  have hfour : (4 : UInt64).toNat = 4 := rfl
  have hfloor : (1000 : UInt64).toNat = 1000 := rfl
  have hleast : (1000000 : UInt64).toNat = 1000000 := rfl
  have hmost : (60000000 : UInt64).toNat = 60000000 := rfl
  have hproduct : (4 * rttvar.toUInt64).toNat = 4 * rttvar.toNat := by
    rw [UInt64.toNat_mul, UInt32.toNat_toUInt64, hfour, Nat.mod_eq_of_lt (by omega)]
  have hsum : (srtt.toUInt64 + core.max 1000 (4 * rttvar.toUInt64)).toNat =
      srtt.toNat + max 1000 (4 * rttvar.toNat) := by
    rw [UInt64.toNat_add, UInt32.toNat_toUInt64, hcore.max_eq, hproduct, hfloor,
      Nat.mod_eq_of_lt (by omega)]
  unfold Exact.rto
  rw [UInt64.toNat_toUInt32, hcore.min_eq, hcore.max_eq, hsum, hleast, hmost]
  exact Nat.mod_eq_of_lt (by omega)

/-- The words of the code hold the exact estimate. -/
theorem toNat_sample (hcore : EstimateCore core) {e : Estimate} (h : e.Bounded) {rtt : UInt32}
    (hrtt : rtt.toNat ≤ 60000000) :
    (e.sample core rtt).srttUs.toNat = Exact.srtt e.srttUs.toNat (max 1 rtt.toNat) ∧
      (e.sample core rtt).rttvarUs.toNat =
        Exact.rttvar e.srttUs.toNat e.rttvarUs.toNat (max 1 rtt.toNat) ∧
      (e.sample core rtt).rtoUs.toNat = Exact.rto (e.sample core rtt).srttUs.toNat
        (e.sample core rtt).rttvarUs.toNat := by
  have hround := toNat_round rtt
  unfold sample
  dsimp only
  generalize (if rtt = 0 then 1 else rtt) = round at hround ⊢
  rw [← hround]
  exact ⟨toNat_srtt h.srtt_le (by omega), toNat_rttvar h.srtt_le h.rttvar_le (by omega), toNat_rto hcore⟩

/-- The timeout is at least a second. -/
def Timely (e : Estimate) : Prop := 1000000 ≤ e.rtoUs.toNat

theorem Bounded.sample (hcore : EstimateCore core) {e : Estimate} (h : e.Bounded) {rtt : UInt32}
    (hrtt : rtt.toNat ≤ 60000000) : (e.sample core rtt).Bounded ∧ (e.sample core rtt).Timely := by
  obtain ⟨hsrtt, hrttvar, hrto⟩ := toNat_sample hcore h hrtt
  refine ⟨⟨?_, ?_, ?_⟩, ?_⟩
  · rw [hsrtt]
    exact Exact.srtt_le h.srtt_le (by omega)
  · rw [hrttvar]
    exact Exact.rttvar_le h.srtt_le h.rttvar_le (by omega)
  · rw [hrto]
    exact (Exact.rto_bounds _ _).2
  · rw [Timely, hrto]
    exact (Exact.rto_bounds _ _).1

theorem Bounded.backoff {e : Estimate} (h : e.Bounded) :
    e.backoff.Bounded ∧ (e.Timely → e.backoff.Timely) := by
  have hmost : (60000000 : UInt32).toNat = 60000000 := rfl
  have htwo : (2 : UInt32).toNat = 2 := rfl
  have hrto := h.rto_le
  have hdouble : e.backoff.rtoUs.toNat = min 60000000 (e.rtoUs.toNat * 2) := by
    unfold Estimate.backoff
    rw [toNat_min32, UInt32.toNat_mul, hmost, htwo, Nat.mod_eq_of_lt (by omega)]
  refine ⟨⟨h.srtt_le, h.rttvar_le, ?_⟩, fun htimely ↦ ?_⟩
  · rw [hdouble]
    exact Nat.min_le_left _ _
  · unfold Timely at htimely ⊢
    omega

end Estimate

/-- A time difference that a sample is made of. -/
theorem toNat_rtt (hcore : EstimateCore core) {now sent : UInt64} (h : sent ≤ now) :
    (core.min (now - sent) 60000000).toUInt32.toNat = min (now.toNat - sent.toNat) 60000000 := by
  have hmost : (60000000 : UInt64).toNat = 60000000 := rfl
  rw [UInt64.toNat_toUInt32, hcore.min_eq, UInt64.toNat_sub_of_le _ _ h, hmost]
  exact Nat.mod_eq_of_lt (by omega)

/-! ## Time stamps -/

/-- A segment was sent before `t`, and its delivery and flight times were taken before it was sent. -/
structure TcpSegment.Stamped (t : UInt64) (s : TcpSegment) : Prop where
  sent_le : s.sentUs ≤ t
  delivered_le : s.deliveredUs ≤ s.sentUs
  flight_le : s.flightUs ≤ s.sentUs

theorem TcpSegment.Stamped.mono {t u : UInt64} {s : TcpSegment} (h : s.Stamped t) (hle : t ≤ u) :
    s.Stamped u := ⟨UInt64.le_trans h.sent_le hle, h.delivered_le, h.flight_le⟩

/-- Every time stamp of the connection lies behind `t`. -/
structure Stamped (t : UInt64) (m : Timing) : Prop where
  slot : ∀ i, (m.pending i).used = true → (m.pending i).Stamped t
  delivered_le : m.deliveredUs ≤ t
  flight_le : m.flightUs ≤ t

theorem Stamped.mono {t u : UInt64} {m : Timing} (h : Stamped t m) (hle : t ≤ u) : Stamped u m :=
  ⟨fun i hi ↦ (h.slot i hi).mono hle, UInt64.le_trans h.delivered_le hle, UInt64.le_trans h.flight_le hle⟩

theorem TcpSegment.acknowledge_stamps (a : UInt32) (s : TcpSegment) :
    (s.acknowledge a).sentUs = s.sentUs ∧ (s.acknowledge a).deliveredUs = s.deliveredUs ∧
      (s.acknowledge a).flightUs = s.flightUs := by
  unfold acknowledge
  split
  · exact ⟨rfl, rfl, rfl⟩
  · split <;> exact ⟨rfl, rfl, rfl⟩

theorem Stamped.turn {m n : Timing} {now : UInt64} {new : List Emission} (h : Stamped now m)
    (hturn : Turn core m now n new) : Stamped now n := by
  have hnow : now ≤ now := UInt64.le_refl now
  cases hturn with
  | keep => exact h
  | idle => exact ⟨h.slot, hnow, hnow⟩
  | resend i timeout rate e hused =>
    refine ⟨fun j hj ↦ ?_, h.delivered_le, h.flight_le⟩
    change (Function.update m.pending i ((m.pending i).resentAt now) j).used = true at hj
    change (Function.update m.pending i ((m.pending i).resentAt now) j).Stamped now
    by_cases hij : j = i
    · have hslot := h.slot i hused
      rw [hij, Function.update_self]
      exact ⟨hnow, UInt64.le_trans hslot.delivered_le hslot.sent_le,
        UInt64.le_trans hslot.flight_le hslot.sent_le⟩
    · rw [Function.update_of_ne hij] at hj ⊢
      exact h.slot j hj
  | acknowledge a =>
    refine ⟨fun i hi ↦ ?_, hnow, h.flight_le⟩
    obtain ⟨hsent, hdelivered, hflight⟩ := TcpSegment.acknowledge_stamps a (m.pending i)
    have hslot := h.slot i (TcpSegment.acknowledge_used hi).1
    refine ⟨?_, ?_, ?_⟩
    · exact hsent ▸ hslot.sent_le
    · exact hsent ▸ hdelivered ▸ hslot.delivered_le
    · exact hsent ▸ hflight ▸ hslot.flight_le
  | establish =>
    refine ⟨fun i hi ↦ ?_, hnow, h.flight_le⟩
    change (Function.update m.pending 0 { m.pending 0 with used := false } i).used = true at hi
    change (Function.update m.pending 0 { m.pending 0 with used := false } i).Stamped now
    by_cases hzero : i = 0
    · rw [hzero, Function.update_self] at hi
      cases hi
    · rw [Function.update_of_ne hzero] at hi ⊢
      exact h.slot i hi
  | append slot s idle deliveredUs flightUs e hunused hused hsequence hretries hlength hdelivered
      hflight hstamps =>
    have hdelivered' : deliveredUs ≤ now := by
      rcases hdelivered with rfl | rfl
      · exact h.delivered_le
      · exact hnow
    have hflight' : flightUs ≤ now := by
      rcases hflight with rfl | rfl
      · exact h.flight_le
      · exact hnow
    have hzero : (0 : UInt64) ≤ now := UInt64.le_iff_toNat_le.mpr (Nat.zero_le _)
    refine ⟨fun j hj ↦ ?_, hdelivered', hflight'⟩
    change (Function.update m.pending slot (s.sentAt now) j).used = true at hj
    change (Function.update m.pending slot (s.sentAt now) j).Stamped now
    by_cases hslot : j = slot
    · rw [hslot, Function.update_self]
      refine ⟨hnow, ?_, ?_⟩
      · rcases hstamps.1 with heq | heq
        · exact heq ▸ hzero
        · exact heq ▸ hdelivered'
      · rcases hstamps.2 with heq | heq
        · exact heq ▸ hzero
        · exact heq ▸ hflight'
    · rw [Function.update_of_ne hslot] at hj ⊢
      exact h.slot j hj

/-! ## Bounds along a run -/

theorem toNat_rtt_le (hcore : EstimateCore core) (now sent : UInt64) :
    (core.min (now - sent) 60000000).toUInt32.toNat ≤ 60000000 := by
  have hmost : (60000000 : UInt64).toNat = 60000000 := rfl
  rw [UInt64.toNat_toUInt32, hcore.min_eq, hmost]
  exact (Nat.mod_le _ _).trans (Nat.min_le_right _ _)

/-- A turn keeps the estimate and the timeout in their bounds. -/
theorem Turn.bounded (hcore : EstimateCore core) {m n : Timing} {now : UInt64} {new : List Emission}
    (hturn : Turn core m now n new) (h : m.estimate.Bounded) :
    n.estimate.Bounded ∧ (m.estimate.Timely → n.estimate.Timely) := by
  have hsample : ∀ sent : UInt64,
      (m.estimate.sample core (core.min (now - sent) 60000000).toUInt32).Bounded ∧
        (m.estimate.Timely →
          (m.estimate.sample core (core.min (now - sent) 60000000).toUInt32).Timely) := fun sent ↦
    (h.sample hcore (toNat_rtt_le hcore now sent)).imp_right fun htimely _ ↦ htimely
  cases hturn with
  | keep => exact ⟨h, id⟩
  | idle => exact ⟨h, id⟩
  | resend i timeout =>
    cases timeout with
    | true => exact h.backoff
    | false => exact ⟨h, id⟩
  | acknowledge a estimate rate hnew hlow hhigh hestimate =>
    cases hestimate with
    | keep => exact ⟨h, id⟩
    | sample i => exact hsample _
  | establish estimate hopen hempty hestimate =>
    split at hestimate
    · subst hestimate
      exact hsample _
    · have hthree : 1000000 ≤ (3000000 : UInt32).toNat ∧ (3000000 : UInt32).toNat ≤ 60000000 := by decide
      subst hestimate
      exact ⟨⟨h.srtt_le, h.rttvar_le, hthree.2⟩, fun _ ↦ hthree.1⟩
  | append => exact ⟨h, id⟩

/-! ## Samples -/

/-- While the SYN is unacknowledged it is in the queue. -/
def Offered (c : Tcp ρ) : Prop :=
  c.state = .synSent → c.una ≠ c.next → ∃ i, (c.pending i).used = true

theorem Offered.turn {c : Tcp ρ} (h : Offered c) (hsound : c.endpoint.Sound) (event : Event) :
    Offered (step core c event) := by
  intro hsyn hne
  have hopening : c.state = .synSent := by
    by_contra hopened
    exact not_synSent_step core hopened event hsyn
  have huna : c.una = c.isn := (hsound.opening hopening).una_eq
  have hisn : (step core c event).isn = c.isn :=
    congrArg Endpoint.Transfer.isn (transfer_step core c event)
  have huna' : (step core c event).una = (step core c event).isn :=
    ((sound_step core hsound event).opening hsyn).una_eq
  have hkept : (step core c event).timing.una = c.timing.una :=
    (huna'.trans hisn).trans huna.symm
  have hturn := (step_turns core hsound event).turn
  change (step core c event).timing.una ≠ (step core c event).timing.next at hne
  change ∃ i, ((step core c event).timing.pending i).used = true
  generalize (step core c event).timing = n, transmissions c (step core c event) = new
    at hturn hkept hne ⊢
  cases hturn with
  | keep => exact h hopening hne
  | idle => exact h hopening hne
  | resend i timeout rate e hused =>
    refine ⟨i, ?_⟩
    change (Function.update c.pending i ((c.pending i).resentAt event.time) i).used = true
    rw [Function.update_self]
    exact hused
  | acknowledge a estimate rate hnew => exact absurd hkept hnew
  | establish => exact absurd rfl hne
  | append slot s idle deliveredUs flightUs e hunused hused =>
    refine ⟨slot, ?_⟩
    change (Function.update c.pending slot (s.sentAt event.time) slot).used = true
    rw [Function.update_self]
    exact hused

/-- As long as something is outstanding, the queue holds the segment at `una`. -/
theorem Offered.exists_first {c : Tcp ρ} (h : Offered c) (hsound : c.endpoint.Sound)
    (hopen : c.state = .synSent ∨ c.endpoint.Live) (hne : c.una ≠ c.next) :
    ∃ i, (c.pending i).used = true ∧ (c.pending i).sequence = c.una := by
  rcases hopen with hsyn | hlive
  · obtain ⟨i, hused⟩ := h hsyn hne
    have hopening := hsound.opening hsyn
    have huna : c.una = c.isn := hopening.una_eq
    refine ⟨i, hused, ?_⟩
    rw [huna]
    exact congrArg Slot.sequence (hopening.syn i hused).2.1
  · obtain ⟨i, -, hused, hsequence⟩ := exists_oldest (hsound.queue hlive) hne
    exact ⟨i, hused, hsequence⟩

/-- What a new estimate rests on: the newest segment that is acknowledged, when nothing that is
acknowledged was sent twice. -/
structure Measured (core : LarpCore ρ) (m n : Timing) (now : UInt64) (i : Fin tcpSlots) : Prop where
  advance : n.una ≠ m.una
  covered : (m.pending i).Covered n.una
  once : ∀ j, (m.pending j).Covered n.una → (m.pending j).retries = 0
  newest : ∀ j, (m.pending j).Covered n.una →
    before (m.pending i).sequence (m.pending j).sequence = false
  estimate_eq : n.estimate =
    m.estimate.sample core (core.min (now - (m.pending i).sentUs) 60000000).toUInt32

theorem Turn.measured {c : Tcp ρ} {n : Timing} {now : UInt64} {new : List Emission} (hlaid : Laid c)
    (hfirst : c.una ≠ c.next → ∃ i, (c.pending i).used = true ∧ (c.pending i).sequence = c.una)
    (hturn : Turn core c.timing now n new)
    (hchange : n.estimate.srttUs ≠ c.srttUs ∨ n.estimate.rttvarUs ≠ c.rttvarUs) :
    ∃ i, Measured core c.timing n now i := by
  have hsame : ∀ e : Estimate, e.srttUs = c.srttUs → e.rttvarUs = c.rttvarUs →
      ¬ (e.srttUs ≠ c.srttUs ∨ e.rttvarUs ≠ c.rttvarUs) := fun e hsrtt hrttvar hne ↦
    hne.elim (absurd hsrtt) (absurd hrttvar)
  cases hturn with
  | keep => exact absurd hchange (hsame _ rfl rfl)
  | idle => exact absurd hchange (hsame _ rfl rfl)
  | resend i timeout =>
    cases timeout with
    | true => exact absurd hchange (hsame _ rfl rfl)
    | false => exact absurd hchange (hsame _ rfl rfl)
  | append => exact absurd hchange (hsame _ rfl rfl)
  | acknowledge a estimate rate hnew hlow hhigh hestimate =>
    cases hestimate with
    | keep => exact absurd hchange (hsame _ rfl rfl)
    | sample i hcovered honce hnewest => exact ⟨i, hnew, hcovered, honce, hnewest, rfl⟩
  | establish estimate hopen hempty hestimate =>
    obtain ⟨i, hused, hsequence⟩ := hfirst hopen
    have honly : ∀ j, (c.pending j).used = true → j = 0 := by
      intro j hj
      by_contra hzero
      have hunused : (c.pending j).used = false := hempty j hzero
      rw [hunused] at hj
      cases hj
    have hzero := honly i hused
    subst hzero
    have hbefore : before (c.pending 0).sequence c.next = true := by
      have hwithin := hlaid.within 0 hused
      have hnext := hlaid.next_lt
      exact (before_iff_distance (by omega) hnext).mpr (by omega)
    split at hestimate
    · rename_i hretries
      refine ⟨0, hopen.symm, ⟨hused, hbefore⟩, ?_, ?_, hestimate⟩
      · intro j hj
        rw [honly j hj.1]
        exact hretries
      · intro j hj
        rw [honly j hj.1]
        simp [before]
    · rw [hestimate] at hchange
      exact absurd hchange (hsame _ rfl rfl)

namespace Endpoint

theorem Action.una_eq {probing : Prop} {v w : Endpoint} (h : Action probing v w) :
    w.sender.una = v.sender.una := by
  cases h with
  | retransmit h => rw [h.sender_eq]
  | syn accepted => cases accepted <;> rfl
  | complete => rfl
  | probe => rfl
  | data slot length accepted => cases accepted <;> rfl
  | fin slot accepted => cases accepted <;> rfl

theorem Tick.una_eq {probing : Prop} {v w : Endpoint} (h : Tick probing v w) :
    w.sender.una = v.sender.una := by
  cases h with
  | rest => rfl
  | deadline _ h => rw [h.sender_eq]
  | done _ h => rw [h.sender_eq]
  | act _ h haction => rw [haction.una_eq, h.sender_eq]

end Endpoint

theorem tcpTick_una (core : LarpCore ρ) (c : Tcp ρ) (now : UInt64) : (tcpTick core c now).una = c.una :=
  (tcpTick_endpoint core c now).una_eq

/-! ## Runs -/

variable (core) in
/-- No operation of a call at time `now` wraps: the ones of `rtt_sample`, whatever time the sample is
taken from, the doubling of the timeout, and the time differences of the SYN/ACK and of `ack`. -/
structure Unwrapped (c : Tcp ρ) (now : UInt64) : Prop where
  sample : ∀ sent, c.estimate.Fits (if (core.min (now - sent) 60000000).toUInt32 = 0 then 1
    else (core.min (now - sent) 60000000).toUInt32)
  backoff : c.rtoUs.toNat * 2 < 2 ^ 32
  syn : c.state = .synSent → c.una ≠ c.next → (c.pending 0).sentUs ≤ now
  ack : c.endpoint.Live → ∀ a, (ackScan c a).haveSample = true →
    (ackScan c a).sample.sentUs ≤ now ∧ (ackScan c a).sample.deliveredUs ≤ now ∧
      (ackScan c a).sample.flightUs ≤ (ackScan c a).sample.sentUs

/-- Every sequence number of the segment was transmitted exactly once, at time `t`. -/
def TcpSegment.Once (sent : List Transmission) (s : TcpSegment) (t : UInt64) : Prop :=
  s.Holds s.sequence ∧ ∀ q, s.Holds q → Times sent q 1 t

variable (core) in
/-- A call changes the estimate only when it is a segment that advances `una`, everything this covers
was sent exactly once, and the sample is the time since the newest of these segments was sent. -/
def Karn (sent : List Transmission) (c : Tcp ρ) (event : Event) : Prop :=
  (step core c event).srttUs ≠ c.srttUs ∨ (step core c event).rttvarUs ≠ c.rttvarUs →
    (∃ b size, event = .input b size event.time) ∧ (step core c event).una ≠ c.una ∧
      (∀ j, (c.pending j).Covered (step core c event).una → ∃ t, (c.pending j).Once sent t) ∧
      ∃ i t, (c.pending i).Covered (step core c event).una ∧
        (∀ j, (c.pending j).Covered (step core c event).una →
          before (c.pending i).sequence (c.pending j).sequence = false) ∧
        (c.pending i).Once sent t ∧ t ≤ event.time ∧
        (step core c event).srttUs.toNat =
          Exact.srtt c.srttUs.toNat (Exact.rtt event.time.toNat t.toNat) ∧
        (step core c event).rttvarUs.toNat =
          Exact.rttvar c.srttUs.toNat c.rttvarUs.toNat (Exact.rtt event.time.toNat t.toNat)

theorem ackScan_sample {c : Tcp ρ} (h : c.sender.Queue) (a : UInt32)
    (hhave : (ackScan c a).haveSample = true) :
    ∃ i, (c.pending i).used = true ∧ (ackScan c a).sample = c.pending i := by
  obtain ⟨i, -, hcovered, -, hsample, -⟩ := (scanned_ackScan c a fun i j ↦ covered_order h a).some hhave
  exact ⟨i, hcovered.1, hsample⟩

/-- The invariant of a run; `started` says that `tcp_start` accepted the request. -/
structure BookRun (started : Prop) (before : List Event) (c : Tcp ρ) : Prop where
  bounded : c.estimate.Bounded
  timely : started → c.estimate.Timely
  offered : Offered c
  stamped : ∀ t, (∀ e ∈ before, e.time ≤ t) → Stamped t c.timing

theorem BookRun.turn (hcore : EstimateCore core) {started : Prop} {before : List Event} {c : Tcp ρ}
    {event : Event} (h : BookRun started before c) (hsound : c.endpoint.Sound)
    (htime : ∀ e ∈ before, e.time ≤ event.time) :
    BookRun started (before ++ [event]) (step core c event) := by
  have hturn := (step_turns core hsound event).turn
  obtain ⟨hbounded, htimely⟩ := hturn.bounded hcore h.bounded
  refine ⟨hbounded, fun hstart ↦ htimely (h.timely hstart), h.offered.turn hsound event, ?_⟩
  intro t ht
  have hle : event.time ≤ t := ht event (List.mem_append_right _ (List.mem_singleton_self event))
  exact ((h.stamped event.time htime).turn hturn).mono hle

theorem BookRun.unwrapped (hcore : EstimateCore core) {started : Prop} {before : List Event} {c : Tcp ρ}
    {now : UInt64} (h : BookRun started before c) (hsound : c.endpoint.Sound)
    (htime : ∀ e ∈ before, e.time ≤ now) : Unwrapped core c now := by
  have hstamped := h.stamped now htime
  have hrto : c.rtoUs.toNat ≤ 60000000 := h.bounded.rto_le
  refine ⟨?_, by omega, ?_, ?_⟩
  · intro sent
    have hle := toNat_rtt_le hcore now sent
    refine h.bounded.fits ?_
    rw [Estimate.toNat_round]
    omega
  · intro hsyn hne
    obtain ⟨i, hused⟩ := h.offered hsyn hne
    have hzero : i = 0 := ((hsound.opening hsyn).syn i hused).1
    rw [← hzero]
    exact (hstamped.slot i hused).sent_le
  · intro hlive a hhave
    obtain ⟨i, hused, hsample⟩ := ackScan_sample (hsound.queue hlive) a hhave
    have hslot := hstamped.slot i hused
    rw [hsample]
    exact ⟨hslot.sent_le, UInt64.le_trans hslot.delivered_le hslot.sent_le, hslot.flight_le⟩

theorem BookRun.karn (hcore : EstimateCore core) {started : Prop} {before : List Event} {c : Tcp ρ}
    {sent : List Transmission} {event : Event} (h : BookRun started before c)
    (hhistory : History c.isn sent c.timing) (hsound : c.endpoint.Sound)
    (htime : ∀ e ∈ before, e.time ≤ event.time) : Karn core sent c event := by
  intro hchange
  rcases c.rest_or_open with hrest | hopen
  · rw [step_of_rest core hrest] at hchange
    exact absurd hchange (by simp)
  have hlaid := laid_of_sound hsound hopen
  obtain ⟨i, hmeasured⟩ := (step_turns core hsound event).turn.measured hlaid
    (h.offered.exists_first hsound hopen) hchange
  have honce : ∀ j, (c.pending j).Covered (step core c event).una →
      (c.pending j).Once sent (c.pending j).sentUs := by
    intro j hj
    have hretries : (c.pending j).retries = 0 := hmeasured.once j hj
    refine ⟨?_, fun q hq ↦ ?_⟩
    · unfold TcpSegment.Holds
      rw [distance_self]
      exact (hlaid.within j hj.1).2.1
    · have htimes := hhistory.queued j hj.1 q hq
      change Times sent q ((c.pending j).retries.toNat + 1) (c.pending j).sentUs at htimes
      rw [hretries] at htimes
      exact htimes
  have hcovered : (c.pending i).Covered (step core c event).una := hmeasured.covered
  have hsent : (c.pending i).sentUs ≤ event.time :=
    ((h.stamped event.time htime).slot i hcovered.1).sent_le
  have hsample := Estimate.toNat_sample hcore h.bounded
    (toNat_rtt_le hcore event.time (c.pending i).sentUs)
  rw [toNat_rtt hcore hsent] at hsample
  have hestimate : (step core c event).estimate = c.estimate.sample core
      (core.min (event.time - (c.pending i).sentUs) 60000000).toUInt32 := hmeasured.estimate_eq
  rw [← hestimate] at hsample
  refine ⟨?_, hmeasured.advance, fun j hj ↦ ⟨_, honce j hj⟩,
    i, _, hcovered, hmeasured.newest, honce i hcovered, hsent, hsample.1, hsample.2.1⟩
  cases event with
  | input b size now => exact ⟨b, size, rfl⟩
  | tick now => exact absurd (tcpTick_una core c now) hmeasured.advance

theorem Request.connect_estimate (r : Request) (core : LarpCore ρ) :
    (r.connect core).srttUs = 0 ∧ (r.connect core).rttvarUs = 0 ∧ (r.connect core).deliveredUs = 0 ∧
      (r.connect core).flightUs = 0 ∧ (r.connect core).una = (r.connect core).next ∧
      (((r.connect core).state = .failed ∧ (r.connect core).rtoUs = 0) ∨
        (r.connect core).rtoUs = 1000000) := by
  unfold Request.connect tcpStart
  dsimp only
  split
  · exact ⟨rfl, rfl, rfl, rfl, rfl, Or.inl ⟨rfl, rfl⟩⟩
  · exact ⟨rfl, rfl, rfl, rfl, rfl, Or.inr rfl⟩

theorem bookRun (hcore : EstimateCore core) (r : Request) {events : List Event}
    (hclock : Clocked events) : BookRun ((r.connect core).state = .synSent) events
      (run (step core) (r.connect core) events) := by
  refine timeline_induction (r.connect_sound core) hclock
    (fun before _ d ↦ BookRun ((r.connect core).state = .synSent) before d) ?_
    fun before event d _ hsound htime _ _ h ↦ h.turn hcore hsound htime
  obtain ⟨hsrtt, hrttvar, hdelivered, hflight, hnext, hrto⟩ := r.connect_estimate core
  have hzero : ∀ t : UInt64, 0 ≤ t := fun t ↦ UInt64.le_iff_toNat_le.mpr (Nat.zero_le _)
  refine ⟨⟨?_, ?_, ?_⟩, ?_, fun _ hne ↦ absurd hnext hne, fun t _ ↦ ⟨?_, ?_, ?_⟩⟩
  · rw [Tcp.estimate_srttUs, hsrtt]
    decide
  · rw [Tcp.estimate_rttvarUs, hrttvar]
    decide
  · rw [Tcp.estimate_rtoUs]
    rcases hrto with ⟨-, hrto⟩ | hrto <;> rw [hrto] <;> decide
  · intro hstart
    rw [Estimate.Timely, Tcp.estimate_rtoUs]
    rcases hrto with ⟨hfailed, -⟩ | hrto
    · rw [hfailed] at hstart
      cases hstart
    · rw [hrto]
      decide
  · intro i hi
    rw [Tcp.timing_pending, (r.connect_timing core).1 i] at hi
    cases hi
  · rw [Tcp.timing_deliveredUs, hdelivered]
    exact hzero t
  · rw [Tcp.timing_flightUs, hflight]
    exact hzero t

/-- The estimate and the timeout stay below a minute, and the timeout of an accepted request is at
least a second; no operation wraps, and every sample is unambiguous. -/
theorem booked_of_run (hcore : EstimateCore core) (r : Request) (events : List Event)
    (hclock : Clocked events) :
    (run (step core) (r.connect core) events).estimate.Bounded ∧
      ((r.connect core).state = .synSent →
        1000000 ≤ (run (step core) (r.connect core) events).rtoUs.toNat) ∧
      ∀ before event after, events = before ++ event :: after →
        Unwrapped core (run (step core) (r.connect core) before) event.time ∧
          Karn core (timeline core (r.connect core) before)
            (run (step core) (r.connect core) before) event := by
  have hbook := bookRun hcore r hclock
  refine ⟨hbook.bounded, hbook.timely, ?_⟩
  rintro before event after rfl
  have hbefore : Clocked before := (List.pairwise_append.mp hclock).1
  have hbooked := bookRun hcore r hbefore
  have hsound := sound_events core (r.connect_sound core) before
  obtain ⟨hempty, htimer⟩ := r.connect_timing core
  have hhistory := (timerRun core (r.connect_sound core) hempty htimer hbefore).1.history
  exact ⟨hbooked.unwrapped hcore hsound hclock.le, hbooked.karn hcore hhistory hsound hclock.le⟩

theorem estimateCore_steadyCore : EstimateCore steadyCore where
  min_eq a b := by
    change (if a < b then a else b).toNat = min a.toNat b.toNat
    split
    · rename_i hlt
      rw [UInt64.lt_iff_toNat_lt] at hlt
      omega
    · rename_i hle
      rw [UInt64.lt_iff_toNat_lt] at hle
      omega
  max_eq := pacingCore_steadyCore.max_eq

/-- The SYN is answered after 200 ms. -/
def answeredEvents : List Event :=
  [.tick 5, .input (peerSegment 500 101 (tcpSyn ||| tcpAck) 4096 []) 20 200005]

theorem clocked_answeredEvents : Clocked answeredEvents := by
  unfold Clocked answeredEvents
  decide

theorem booked_of_run_answeredEvents :
    (lonelyRequest.connect steadyCore).state = .synSent ∧
      (run (step steadyCore) (lonelyRequest.connect steadyCore) answeredEvents).srttUs = 200000 ∧
      ((run (step steadyCore) (lonelyRequest.connect steadyCore) answeredEvents).estimate.Bounded ∧
        ((lonelyRequest.connect steadyCore).state = .synSent → 1000000 ≤
          (run (step steadyCore) (lonelyRequest.connect steadyCore) answeredEvents).rtoUs.toNat) ∧
        ∀ before event after, answeredEvents = before ++ event :: after →
          Unwrapped steadyCore (run (step steadyCore) (lonelyRequest.connect steadyCore) before)
              event.time ∧
            Karn steadyCore (timeline steadyCore (lonelyRequest.connect steadyCore) before)
              (run (step steadyCore) (lonelyRequest.connect steadyCore) before) event) :=
  ⟨rfl, by decide +kernel,
    booked_of_run estimateCore_steadyCore lonelyRequest answeredEvents clocked_answeredEvents⟩

/-- A request without a port is refused. -/
def refusedRequest : Request := { lonelyRequest with localPort := 0 }

/-- The SYN is answered after 61 seconds. -/
def lateAnswer : List Event :=
  [.tick 5, .input (peerSegment 500 101 (tcpSyn ||| tcpAck) 4096 []) 20 61000005]

/-- A refused request leaves a timeout of zero, and a sample is never longer than a minute. -/
theorem not_booked_refusedRequest :
    EstimateCore steadyCore ∧ Clocked lateAnswer ∧
      ¬ 1000000 ≤ (run (step steadyCore) (refusedRequest.connect steadyCore) []).rtoUs.toNat ∧
      (run (step steadyCore) (lonelyRequest.connect steadyCore) lateAnswer).srttUs = 60000000 := by
  refine ⟨estimateCore_steadyCore, ?_, ?_, ?_⟩
  · unfold Clocked lateAnswer
    decide
  · decide +kernel
  · decide +kernel

end JordyOS.Transport
