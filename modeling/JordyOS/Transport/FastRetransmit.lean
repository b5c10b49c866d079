import JordyOS.Transport.Download
import JordyOS.Transport.Finality
import JordyOS.Transport.Timeline

/-!
# Fast retransmit

`ack` counts duplicate acknowledgements and calls `loss` when the counter becomes three.  `loss` may
return without sending anything, and the counter moves on: the signal is not repeated before the
32-bit counter has wrapped.
-/

namespace JordyOS.Transport

open Machine Net

variable {ρ : Type} (core : LarpCore ρ)

/-! ## Duplicate acknowledgements -/

/-- An acceptable segment without payload and FIN that acknowledges `una` and leaves the window. -/
structure Duplicate (c : Tcp ρ) (b : Memory) (size : ℕ) : Prop where
  addressed : addressed c b size = true
  empty : size = headerLength b
  noReset : has (b 13) tcpRst = false
  noSyn : has (b 13) tcpSyn = false
  isAck : has (b 13) tcpAck = true
  noFin : has (b 13) tcpFin = false
  accepted : acceptable c.receiveNext c.rxSize (netRead32 (b.shift 4)) 0 (b 13) = true
  acknowledgement : netRead32 (b.shift 8) = c.una
  steady : (windowUpdate c b (netRead32 (b.shift 4)) c.una).2 = false

/-- Every call delivers a duplicate acknowledgement. -/
def Duplicates (c : Tcp ρ) (events : List Event) : Prop :=
  ∀ before event after, events = before ++ event :: after →
    ∃ b size now, event = .input b size now ∧ Duplicate (run (step core) c before) b size

/-- `loss` sends the oldest segment at time `now`: it was retried less than eight times, the gate is
open for it and `emit` accepts it. -/
def Unblocked (c : Tcp ρ) (now : UInt64) : Prop :=
  ∃ i, oldest c = some i ∧ (c.pending i).retries < 8 ∧
    (c.nextSendUs ≤ now ∨ (c.pending i).length = 0) ∧ (transmit core c (c.pending i) now).2.2 = true

/-- The clock has reached `next_send_us`, `emit` accepts the oldest segment and it was retried less
than eight times. -/
def Ready (c : Tcp ρ) (now : UInt64) : Prop :=
  c.nextSendUs ≤ now ∧ ∃ i, oldest c = some i ∧ (c.pending i).retries < 8 ∧
    (transmit core c (c.pending i) now).2.2 = true

/-- The call sends the oldest segment. -/
def Resends (c : Tcp ρ) (event : Event) : Prop :=
  ∃ i, oldest c = some i ∧ ∃ e ∈ transmissions c (step core c event), e.Transmits (c.pending i)

/-- The oldest segment is sent in the third call or in a later one. -/
def Resent (c : Tcp ρ) (events : List Event) : Prop :=
  ∃ before event after, events = before ++ event :: after ∧ 2 ≤ before.length ∧
    Resends core (run (step core) c before) event

/-- If the last call finds nothing that blocks `loss`, the oldest segment has been sent. -/
def Deferred (c : Tcp ρ) (events : List Event) : Prop :=
  ∀ first last, events = first ++ [last] → Ready core (run (step core) c first) last.time →
    Resent core c events

/-- In the third call, or in a later one that finds the counter at two again, nothing blocks `loss`. -/
def Signalled (c : Tcp ρ) (events : List Event) : Prop :=
  ∃ before event after, events = before ++ event :: after ∧ before.length % 2 ^ 32 = 2 ∧
    Unblocked core (run (step core) c before) event.time

/-! ## Loss -/

variable {core} {c : Tcp ρ} {now : UInt64}

theorem transmit_frame (core : LarpCore ρ) (c : Tcp ρ) (s : TcpSegment) (now : UInt64) :
    (transmit core c s now).1.state = c.state ∧ (transmit core c s now).1.dupacks = c.dupacks ∧
      (transmit core c s now).1.recovery = c.recovery := by
  unfold transmit
  generalize (if s.length ≠ 0 then c.tx.shift s.offset.toNat else Memory.zero) = data
  have houtput : (output c s.sequence s.flags data s.length).1.state = c.state ∧
      (output c s.sequence s.flags data s.length).1.dupacks = c.dupacks ∧
      (output c s.sequence s.flags data s.length).1.recovery = c.recovery := ⟨rfl, rfl, rfl⟩
  generalize output c s.sequence s.flags data s.length = r at houtput ⊢
  obtain ⟨d, sent⟩ := r
  cases sent with
  | false => exact houtput
  | true =>
    dsimp only
    split
    · exact houtput
    · split <;> exact houtput

/-- `loss` sends the oldest segment and enters recovery. -/
theorem loss_of_unblocked (hsound : c.endpoint.Sound) (hlive : c.endpoint.Live)
    (h : Unblocked core c now) :
    (loss core c now false).recovery = true ∧ (loss core c now false).state = c.state ∧
      (loss core c now false).dupacks = c.dupacks ∧
      (∃ j, ((loss core c now false).pending j).used = true) ∧
      ∃ i e, oldest c = some i ∧ (loss core c now false).context = e :: c.context ∧
        e.Transmits (c.pending i) := by
  obtain ⟨i, hold, hretries, hgate, hsent⟩ := h
  have hused := oldest_used hold
  have hopen : c.state ≠ .synSent := hlive.not_synSent
  have hcount : ¬ (c.pending i).retries ≥ 8 := UInt8.not_le.mpr hretries
  have hpass : ¬ (now < c.nextSendUs ∧ (c.pending i).length ≠ 0) := by
    rintro ⟨hearly, hlength⟩
    rcases hgate with hgate | hgate
    · exact UInt64.not_lt.mpr hgate hearly
    · exact hlength hgate
  have hcases := transmit_cases core c (c.pending i) now
  obtain ⟨hstate, hdupacks, -⟩ := transmit_frame core c (c.pending i) now
  unfold loss
  rw [hold]
  simp only [if_neg hcount, if_neg hpass]
  generalize transmit core c (c.pending i) now = r at hcases hsent hstate hdupacks ⊢
  obtain ⟨d, s, sent⟩ := r
  simp only at hcases hsent hstate hdupacks ⊢
  subst hsent
  rcases hcases with ⟨hnone, -⟩ | ⟨-, hs, -, e, hcontext, he⟩
  · cases hnone
  have hopen' : ¬ (retransmitted d i s now false).state = .synSent := by
    change ¬ d.state = .synSent
    rw [hstate]
    exact hopen
  simp only [Bool.not_true, Bool.false_eq_true, if_false, if_neg hopen']
  refine ⟨rfl, hstate, hdupacks, ⟨i, ?_⟩, i, e, rfl, hcontext,
    he (slot_flags hsound (Or.inr hlive) hused)⟩
  change (Function.update d.pending i { s with retries := s.retries + 1 } i).used = true
  rw [Function.update_self, hs]
  exact hused

/-- Otherwise `loss` sends nothing that occupies sequence numbers, and gives up only a segment that
was retried eight times. -/
theorem loss_of_blocked (h : ¬ Unblocked core c now) {i : Fin tcpSlots} (hold : oldest c = some i) :
    Silent c (loss core c now false) ∧
      (((loss core c now false).state = .failed ∧ ¬ (c.pending i).retries < 8) ∨
        ((loss core c now false).state = c.state ∧ (loss core c now false).dupacks = c.dupacks ∧
          (loss core c now false).recovery = c.recovery)) := by
  unfold loss
  rw [hold]
  dsimp only
  split
  · rename_i hretries
    refine ⟨tcpAbort_silent c _, Or.inl ⟨?_, UInt8.not_lt.mpr hretries⟩⟩
    unfold tcpAbort
    split <;> rfl
  rename_i hretries
  split
  · exact ⟨Silent.refl c, Or.inr ⟨rfl, rfl, rfl⟩⟩
  rename_i hgate
  have hpass : c.nextSendUs ≤ now ∨ (c.pending i).length = 0 := by
    by_contra hblocked
    rw [not_or, UInt64.not_le] at hblocked
    exact hgate hblocked
  have hcases := transmit_cases core c (c.pending i) now
  have hfalse : (transmit core c (c.pending i) now).2.2 = false := by
    rw [Bool.eq_false_iff]
    exact fun hsent ↦ h ⟨i, hold, UInt8.not_le.mp hretries, hpass, hsent⟩
  have hframe := transmit_frame core c (c.pending i) now
  generalize transmit core c (c.pending i) now = r at hcases hfalse hframe ⊢
  obtain ⟨d, s, sent⟩ := r
  simp only at hcases hfalse hframe ⊢
  subst hfalse
  rcases hcases with ⟨-, hsilent⟩ | ⟨hsent, -⟩
  · exact ⟨hsilent, Or.inr hframe⟩
  · cases hsent

/-! ## One duplicate acknowledgement -/

section
variable {b : Memory} {size : ℕ}

theorem una_not_above (hsound : c.endpoint.Sound) (hlive : c.endpoint.Live) :
    before c.next c.una = false := by
  have hqueue : c.sender.Queue := hsound.queue hlive
  have hnext : distance c.isn c.next < 2 ^ 31 := hqueue.next_lt
  have hle : distance c.isn c.una ≤ distance c.isn c.next := hqueue.una_le
  rw [Bool.eq_false_iff]
  intro hbefore
  have hlt := (before_iff_distance hnext (hle.trans_lt hnext)).mp hbefore
  omega

/-- A duplicate acknowledgement reaches `ack`. -/
theorem Duplicate.tcpInput_eq (h : Duplicate c b size) (hsound : c.endpoint.Sound)
    (hconnected : c.endpoint.Connected) (now : UInt64) :
    tcpInput core c b size now =
      ack core (windowUpdate c b (netRead32 (b.shift 4)) c.una).1 c.una now := by
  have hlive : c.endpoint.Live := hconnected.live
  have hopen : c.state ≠ .synSent := hlive.not_synSent
  have hnot : ¬ (c.state ≠ .established ∧ c.state ≠ .closing ∧ c.state ≠ .done) := fun hclosed ↦
    hconnected.elim hclosed.1 hclosed.2.1
  have hlength : UInt32.ofNat (size - headerLength b) = 0 := by
    rw [h.empty, Nat.sub_self]
    rfl
  have hhigh := una_not_above hsound hlive
  have hself : before c.una c.una = false := by simp [before]
  have hsteady := h.steady
  unfold tcpInput
  rw [h.addressed, if_neg (by decide)]
  dsimp only
  rw [if_neg hopen, if_neg hnot, hlength, h.acknowledgement]
  unfold streamInput
  rw [h.noReset, h.noSyn, h.isAck, h.accepted, hhigh, hself]
  simp only [Bool.false_eq_true, if_false, Bool.false_and, Bool.not_true, Bool.or_self]
  unfold acceptedInput
  generalize windowUpdate c b (netRead32 (b.shift 4)) c.una = r at hsteady ⊢
  obtain ⟨d, changed⟩ := r
  simp only at hsteady ⊢
  simp [hsteady, h.noFin]

theorem oldest_congr {d : Tcp ρ} (h : d.pending = c.pending) : oldest d = oldest c := by
  unfold oldest older
  rw [h]

theorem ack_of_duplicate (core : LarpCore ρ) {u : Tcp ρ} (hhigh : before u.next u.una = false) {i : Fin tcpSlots}
    (hold : oldest u = some i) (now : UInt64) :
    ack core u u.una now = if u.dupacks + 1 = 3 ∧ u.recovery = false
      then loss core { u with dupacks := u.dupacks + 1 } now false
      else { u with dupacks := u.dupacks + 1 } := by
  have hself : before u.una u.una = false := by simp [before]
  have hsome : ¬ (oldest u).isNone = true := by simp [hold]
  unfold ack
  rw [hself, hhigh, if_neg (by decide), if_pos rfl, if_neg hsome]
  simp only [Bool.not_eq_true']

/-- Whether a segment is sent depends on `emit` and on the fields of the header. -/
theorem transmit_sent (core : LarpCore ρ) (c : Tcp ρ) (s : TcpSegment) (now : UInt64) :
    (transmit core c s now).2.2 = (output c s.sequence s.flags
      (if s.length ≠ 0 then c.tx.shift s.offset.toNat else Memory.zero) s.length).2 := by
  unfold transmit
  generalize output c s.sequence s.flags _ s.length = r
  obtain ⟨d, sent⟩ := r
  cases sent <;> rfl

theorem transmissions_singleton {d : Tcp ρ} {e : Emission} (h : d.context = e :: c.context)
    (he : e.transmitted = true) : transmissions c d = [e] := by
  have happend : d.context = [e] ++ c.context := h
  rw [transmissions_of_context happend, List.filter_cons_of_pos he]
  rfl

theorem Silent.transmissions_eq {d : Tcp ρ} (h : Silent c d) : transmissions c d = [] := by
  obtain ⟨-, sent, hcontext, hfilter⟩ := h
  rw [transmissions_of_context hcontext, hfilter]
  rfl

/-- Window and counter have taken note of a duplicate acknowledgement. -/
def counted (c : Tcp ρ) (b : Memory) : Tcp ρ :=
  { (windowUpdate c b (netRead32 (b.shift 4)) c.una).1 with dupacks := c.dupacks + 1 }

theorem Duplicate.tcpInput_counted (h : Duplicate c b size) (hsound : c.endpoint.Sound)
    (hconnected : c.endpoint.Connected) {i : Fin tcpSlots} (hold : oldest c = some i) (now : UInt64) :
    tcpInput core c b size now = if c.dupacks + 1 = 3 ∧ c.recovery = false
      then loss core (counted c b) now false else counted c b := by
  have hsteady : (windowUpdate c b (netRead32 (b.shift 4)) c.una).1.dupacks = c.dupacks := by
    have hsteady := h.steady
    unfold windowUpdate at hsteady ⊢
    dsimp only at hsteady ⊢
    rw [hsteady, if_neg (by decide)]
  have hold' : oldest (windowUpdate c b (netRead32 (b.shift 4)) c.una).1 = some i :=
    (oldest_congr rfl).trans hold
  have hhigh : before (windowUpdate c b (netRead32 (b.shift 4)) c.una).1.next
      (windowUpdate c b (netRead32 (b.shift 4)) c.una).1.una = false :=
    una_not_above (hsound.of_frame rfl (Or.inl rfl)) hconnected.live
  have hack := ack_of_duplicate core hhigh hold' now
  rw [hsteady] at hack
  exact (h.tcpInput_eq hsound hconnected now).trans hack

theorem unblocked_counted (core : LarpCore ρ) (c : Tcp ρ) (b : Memory) (now : UInt64) :
    Unblocked core (counted c b) now ↔ Unblocked core c now := by
  have hold : oldest (counted c b) = oldest c := oldest_congr rfl
  have hsent : ∀ i, (transmit core (counted c b) (c.pending i) now).2.2 =
      (transmit core c (c.pending i) now).2.2 := by
    intro i
    rw [transmit_sent, transmit_sent]
    rfl
  unfold Unblocked
  rw [hold]
  refine exists_congr fun i ↦ and_congr_right fun _ ↦ and_congr_right fun _ ↦ and_congr_right fun _ ↦ ?_
  rw [← hsent i]
  rfl

/-- The duplicate acknowledgement that makes the counter three has `loss` send the oldest segment, or
`loss` is blocked. -/
theorem Duplicate.cases (core : LarpCore ρ) (h : Duplicate c b size) (hsound : c.endpoint.Sound)
    (hconnected : c.endpoint.Connected) {i : Fin tcpSlots} (hold : oldest c = some i) (now : UInt64) :
    (c.dupacks + 1 = 3 ∧ c.recovery = false ∧ Unblocked core c now ∧
        Resends core c (.input b size now) ∧ (tcpInput core c b size now).state = c.state ∧
        (tcpInput core c b size now).dupacks = c.dupacks + 1 ∧
        ∃ j, ((tcpInput core c b size now).pending j).used = true) ∨
      (¬ Resends core c (.input b size now) ∧
        (c.dupacks + 1 = 3 → c.recovery = false → ¬ Unblocked core c now) ∧
        (tcpInput core c b size now).pending = c.pending ∧
        (((tcpInput core c b size now).state = .failed ∧ ¬ (c.pending i).retries < 8) ∨
          ((tcpInput core c b size now).state = c.state ∧
            (tcpInput core c b size now).dupacks = c.dupacks + 1 ∧
            (tcpInput core c b size now).recovery = c.recovery))) := by
  have hinput : tcpInput core c b size now = if c.dupacks + 1 = 3 ∧ c.recovery = false
      then loss core (counted c b) now false else counted c b :=
    h.tcpInput_counted hsound hconnected hold now
  have hcountedSound : (counted c b).endpoint.Sound := hsound.of_frame rfl (Or.inl rfl)
  have hcountedLive : (counted c b).endpoint.Live := hconnected.live
  have hcountedOldest : oldest (counted c b) = some i := (oldest_congr rfl).trans hold
  have hquiet : ∀ d : Tcp ρ, Silent (counted c b) d → step core c (.input b size now) = d →
      ¬ Resends core c (.input b size now) ∧ d.pending = c.pending := by
    rintro d hsilent hstep
    have hsilent' : Silent c d := Silent.trans (Silent.of_eq rfl rfl) hsilent
    refine ⟨?_, congrArg Timing.pending hsilent'.1⟩
    rintro ⟨j, -, e, he, -⟩
    rw [hstep, hsilent'.transmissions_eq] at he
    cases he
  by_cases hthird : c.dupacks + 1 = 3 ∧ c.recovery = false
  · rw [if_pos hthird] at hinput
    by_cases hopen : Unblocked core c now
    · left
      obtain ⟨hrecovery, hstate, hdupacks, hused, j, e, hj, hcontext, he⟩ :=
        loss_of_unblocked hcountedSound hcountedLive ((unblocked_counted core c b now).mpr hopen)
      refine ⟨hthird.1, hthird.2, hopen, ?_, ?_, ?_, ?_⟩
      · refine ⟨j, (oldest_congr rfl).symm.trans hj, e, ?_, he⟩
        have hcontext' : (step core c (.input b size now)).context = e :: c.context := by
          change (tcpInput core c b size now).context = _
          rw [hinput]
          exact hcontext
        rw [transmissions_singleton hcontext' he.transmitted]
        exact List.mem_singleton_self e
      · rw [hinput]
        exact hstate
      · rw [hinput]
        exact hdupacks
      · rw [hinput]
        exact hused
    · right
      obtain ⟨hsilent, hframe⟩ :=
        loss_of_blocked ((unblocked_counted core c b now).not.mpr hopen) hcountedOldest
      obtain ⟨hnot, hpending⟩ := hquiet _ hsilent hinput
      rw [hinput]
      exact ⟨hnot, fun _ _ ↦ hopen, hpending, hframe⟩
  · right
    rw [if_neg hthird] at hinput
    obtain ⟨hnot, hpending⟩ := hquiet _ (Silent.refl _) hinput
    rw [hinput]
    exact ⟨hnot, fun hcount hrecovery ↦ absurd ⟨hcount, hrecovery⟩ hthird, hpending,
      Or.inr ⟨rfl, rfl, rfl⟩⟩

end

/-! ## A sequence of duplicate acknowledgements -/

theorem Resent.append {first : List Event} (h : Resent core c first) (second : List Event) :
    Resent core c (first ++ second) := by
  obtain ⟨before, event, after, rfl, hlength, hresends⟩ := h
  exact ⟨before, event, after ++ second, by simp, hlength, hresends⟩

/-- After some duplicate acknowledgements the connection has failed on a segment retried too often, or
the counter counts them, and recovery has not begun before the oldest segment was sent. -/
def Counting (core : LarpCore ρ) (c : Tcp ρ) (before : List Event) (d : Tcp ρ) : Prop :=
  (d.state = .failed ∧ ∀ now, ¬ Unblocked core d now) ∨
    (d.endpoint.Connected ∧ d.dupacks.toNat = before.length % 2 ^ 32 ∧ (∃ i, oldest d = some i) ∧
      (d.recovery = true → Resent core c before))

theorem exists_oldest_of_used (hsound : c.endpoint.Sound) (hlive : c.endpoint.Live)
    {j : Fin tcpSlots} (hused : (c.pending j).used = true) : ∃ i, oldest c = some i := by
  have hqueue : c.sender.Queue := hsound.queue hlive
  obtain ⟨i, hold, -⟩ := exists_oldest hqueue (una_ne_next hqueue hused)
  exact ⟨i, hold⟩

theorem third_iff {d : Tcp ρ} {n : ℕ} (h : d.dupacks.toNat = n % 2 ^ 32) :
    d.dupacks + 1 = 3 ↔ n % 2 ^ 32 = 2 := by
  have hone : (1 : UInt32).toNat = 1 := rfl
  have hthree : (3 : UInt32).toNat = 3 := rfl
  have hword := d.dupacks.toNat_lt
  rw [← UInt32.toNat_inj, UInt32.toNat_add, hone, hthree, h]
  omega

theorem Counting.duplicate {before : List Event} {d : Tcp ρ} (h : Counting core c before d)
    (hrun : d = run (step core) c before) (hsound : d.endpoint.Sound) {b : Memory} {size : ℕ}
    (hd : Duplicate d b size) :
    Counting core c (before ++ [.input b size now]) (step core d (.input b size now)) := by
  rcases h with ⟨hfailed, hblocked⟩ | ⟨hconnected, hcount, ⟨i, hold⟩, hrecovered⟩
  · rw [step_of_failed core hfailed]
    exact Or.inl ⟨hfailed, hblocked⟩
  have hnext : (d.dupacks + 1).toNat = (before ++ [Event.input b size now]).length % 2 ^ 32 := by
    have hone : (1 : UInt32).toNat = 1 := rfl
    rw [UInt32.toNat_add, hone, hcount, List.length_append, List.length_singleton]
    omega
  have hsound' := sound_step core hsound (.input b size now)
  rcases hd.cases core hsound hconnected hold now with
    ⟨hthird, -, -, hresends, hstate, hdupacks, j, hused⟩ | ⟨-, -, hpending, hframe⟩
  · right
    have hconnected' : (step core d (.input b size now)).endpoint.Connected :=
      hconnected.imp hstate.trans hstate.trans
    refine ⟨hconnected', hdupacks ▸ hnext, exists_oldest_of_used hsound' hconnected'.live hused,
      fun _ ↦ ⟨before, _, [], rfl, ?_, hrun ▸ hresends⟩⟩
    have hlength := (third_iff hcount).mp hthird
    omega
  · have hold' : oldest (step core d (.input b size now)) = some i := (oldest_congr hpending).trans hold
    rcases hframe with ⟨hfailed, hretries⟩ | ⟨hstate, hdupacks, hrecovery⟩
    · refine Or.inl ⟨hfailed, ?_⟩
      rintro time ⟨k, hk, hfew, -⟩
      rw [hold', Option.some.injEq] at hk
      have hslot : (step core d (.input b size now)).pending = d.pending := hpending
      rw [← hk, hslot] at hfew
      exact hretries hfew
    · right
      have hconnected' : (step core d (.input b size now)).endpoint.Connected :=
        hconnected.imp hstate.trans hstate.trans
      refine ⟨hconnected', hdupacks ▸ hnext, ⟨i, hold'⟩, fun hrecovered' ↦ ?_⟩
      exact (hrecovered (hrecovery.symm.trans hrecovered')).append _

theorem Duplicates.first {first second : List Event} (h : Duplicates core c (first ++ second)) :
    Duplicates core c first := by
  intro before event after hsplit
  exact h before event (after ++ second) (by rw [hsplit, List.append_assoc, List.cons_append])

theorem counting_run (hsound : c.endpoint.Sound) (hstart : Counting core c [] c) {events : List Event}
    (h : Duplicates core c events) : Counting core c events (run (step core) c events) := by
  refine run_induction (step core) (Counting core c) hstart ?_
  intro before event after hsplit hcounting
  obtain ⟨b, size, now, rfl, hduplicate⟩ := h before event after hsplit
  exact hcounting.duplicate rfl (sound_events core hsound before) hduplicate

/-- The oldest segment is sent in the third duplicate acknowledgement or later exactly when nothing
blocks `loss` in one of those that make the counter three. -/
theorem resent_iff (hsound : c.endpoint.Sound) (hstart : Counting core c [] c) {events : List Event}
    (h : Duplicates core c events) : Resent core c events ↔ Signalled core c events := by
  constructor
  · rintro ⟨before, event, after, rfl, hlength, hresends⟩
    obtain ⟨b, size, now, rfl, hduplicate⟩ := h before event after rfl
    refine ⟨before, _, after, rfl, ?_⟩
    have hsound' := sound_events core hsound before
    rcases counting_run hsound hstart h.first with
      ⟨hfailed, -⟩ | ⟨hconnected, hcount, ⟨i, hold⟩, -⟩
    · obtain ⟨j, -, e, he, -⟩ := hresends
      rw [step_of_failed core hfailed, (Silent.refl _).transmissions_eq] at he
      cases he
    · rcases hduplicate.cases core hsound' hconnected hold now with
        ⟨hthird, -, hopen, -⟩ | ⟨hnot, -⟩
      · exact ⟨(third_iff hcount).mp hthird, hopen⟩
      · exact absurd hresends hnot
  · rintro ⟨before, event, after, rfl, hlength, hopen⟩
    obtain ⟨b, size, now, rfl, hduplicate⟩ := h before event after rfl
    have hsound' := sound_events core hsound before
    rcases counting_run hsound hstart h.first with
      ⟨-, hblocked⟩ | ⟨hconnected, hcount, ⟨i, hold⟩, hrecovered⟩
    · exact absurd hopen (hblocked now)
    · rcases hduplicate.cases core hsound' hconnected hold now with
        ⟨-, -, -, hresends, -⟩ | ⟨-, hblocked, -⟩
      · exact ⟨before, _, after, rfl, by omega, hresends⟩
      · cases hrecovery : (run (step core) c before).recovery with
        | true => exact (hrecovered hrecovery).append _
        | false => exact absurd hopen (hblocked ((third_iff hcount).mpr hlength) hrecovery)

/-- A fast retransmit that was blocked is not made up for: after duplicate acknowledgements the oldest
segment has been sent exactly when one of those that make the counter three found nothing in the way,
or the last one finds something in the way, too. -/
theorem deferred_iff (core : LarpCore ρ) (calls : List Call)
    (hstate : (run (perform core) (zeroed core) calls).state = .established ∨
      (run (perform core) (zeroed core) calls).state = .closing)
    (hrecovery : (run (perform core) (zeroed core) calls).recovery = false)
    (hdupacks : (run (perform core) (zeroed core) calls).dupacks = 0)
    (houtstanding : ∃ i, ((run (perform core) (zeroed core) calls).pending i).used = true)
    (first : List Event) (last : Event)
    (hduplicates : Duplicates core (run (perform core) (zeroed core) calls) (first ++ [last])) :
    Deferred core (run (perform core) (zeroed core) calls) (first ++ [last]) ↔
      (Ready core (run (step core) (run (perform core) (zeroed core) calls) first) last.time →
        Signalled core (run (perform core) (zeroed core) calls) (first ++ [last])) := by
  have hsound := sound_run core calls
  generalize run (perform core) (zeroed core) calls = c at *
  have hconnected : c.endpoint.Connected := hstate
  have hstart : Counting core c [] c := by
    obtain ⟨j, hused⟩ := houtstanding
    refine Or.inr ⟨hconnected, ?_, exists_oldest_of_used hsound hconnected.live hused, ?_⟩
    · rw [hdupacks]
      rfl
    · rw [hrecovery]
      exact nofun
  rw [← resent_iff hsound hstart hduplicates]
  constructor
  · exact fun hdeferred ↦ hdeferred first last rfl
  · intro hsent first' last' hsplit hready
    obtain ⟨rfl, hlast⟩ := List.append_inj' hsplit rfl
    rw [List.singleton_inj] at hlast
    exact hsent (hlast ▸ hready)

/-! ## A lost signal -/

theorem Duplicates.cons {b : Memory} {size : ℕ} {events : List Event} (h : Duplicate c b size)
    (hrest : Duplicates core (step core c (.input b size now)) events) :
    Duplicates core c (.input b size now :: events) := by
  intro before event after hsplit
  cases before with
  | nil =>
    rw [List.nil_append, List.cons.injEq] at hsplit
    exact ⟨b, size, now, hsplit.1.symm, h⟩
  | cons first before =>
    rw [List.cons_append, List.cons.injEq] at hsplit
    obtain ⟨rfl, hsplit⟩ := hsplit
    rw [run_cons]
    exact hrest before event after hsplit

theorem Duplicates.nil : Duplicates core c [] := by
  intro before event after hsplit
  simp at hsplit

/-- Three duplicate acknowledgements in the microsecond in which the segment is sent. -/
def early : List Event :=
  [.input (peerSegment 501 101 tcpAck 4096 []) 20 2000, .input (peerSegment 501 101 tcpAck 4096 []) 20 2000,
    .input (peerSegment 501 101 tcpAck 4096 []) 20 2000]

/-- A fourth one, when the gate is open. -/
def late : Event := .input (peerSegment 501 101 tcpAck 4096 []) 20 2100

theorem duplicates_early :
    Duplicates steadyCore (run (perform steadyCore) (zeroed steadyCore) oneSegment) (early ++ [late]) :=
  .cons ⟨rfl, rfl, rfl, rfl, rfl, rfl, rfl, rfl, rfl⟩ <|
    .cons ⟨rfl, rfl, rfl, rfl, rfl, rfl, rfl, rfl, rfl⟩ <|
    .cons ⟨rfl, rfl, rfl, rfl, rfl, rfl, rfl, rfl, rfl⟩ <|
    .cons ⟨rfl, rfl, rfl, rfl, rfl, rfl, rfl, rfl, rfl⟩ .nil

theorem oldest_oneSegment :
    oldest (run (perform steadyCore) (zeroed steadyCore) oneSegment) = some 0 := by
  decide +kernel

theorem deferred_iff_early :
    Deferred steadyCore (run (perform steadyCore) (zeroed steadyCore) oneSegment) (early ++ [late]) ↔
      (Ready steadyCore (run (step steadyCore)
          (run (perform steadyCore) (zeroed steadyCore) oneSegment) early) late.time →
        Signalled steadyCore (run (perform steadyCore) (zeroed steadyCore) oneSegment)
          (early ++ [late])) :=
  deferred_iff steadyCore oneSegment (Or.inl rfl) rfl rfl ⟨0, oldest_used oldest_oneSegment⟩ early late
    duplicates_early

/-- The third duplicate acknowledgement comes before the gate opens, and the fourth sends nothing. -/
theorem not_deferred_early :
    Clocked (early ++ [late]) ∧
      Duplicates steadyCore (run (perform steadyCore) (zeroed steadyCore) oneSegment)
        (early ++ [late]) ∧
      ¬ Deferred steadyCore (run (perform steadyCore) (zeroed steadyCore) oneSegment)
        (early ++ [late]) := by
  refine ⟨by unfold Clocked early late; decide, duplicates_early, fun hdeferred ↦ ?_⟩
  have hsound := sound_run steadyCore oneSegment
  have hstart : Counting steadyCore (run (perform steadyCore) (zeroed steadyCore) oneSegment) []
      (run (perform steadyCore) (zeroed steadyCore) oneSegment) :=
    Or.inr ⟨Or.inl rfl, rfl, ⟨0, oldest_oneSegment⟩, nofun⟩
  have hready : Ready steadyCore (run (step steadyCore)
      (run (perform steadyCore) (zeroed steadyCore) oneSegment) early) late.time :=
    ⟨by decide +kernel, 0, by decide +kernel, by decide +kernel, rfl⟩
  obtain ⟨before, event, after, hsplit, hlength, i, hold, -, hgate, -⟩ :=
    (resent_iff hsound hstart duplicates_early).mp (hdeferred early late rfl hready)
  have hshort : 4 = (before ++ event :: after).length := congrArg List.length hsplit
  rw [List.length_append, List.length_cons] at hshort
  have htwo : before.length = 2 := by omega
  have hbefore : before = early.take 2 := by
    have htake := congrArg (List.take 2) hsplit
    rw [List.take_left' htwo] at htake
    exact htake.symm
  have hevent : event.time = 2000 := by
    have hdrop := congrArg (List.drop 2) hsplit
    rw [List.drop_left' htwo] at hdrop
    exact (congrArg Event.time (List.cons.inj hdrop).1).symm
  have hfirst : oldest (run (step steadyCore)
      (run (perform steadyCore) (zeroed steadyCore) oneSegment) (early.take 2)) = some 0 := by
    decide +kernel
  rw [hbefore, hfirst, Option.some.injEq] at hold
  rw [hbefore, hevent, ← hold] at hgate
  revert hgate
  decide +kernel

end JordyOS.Transport
