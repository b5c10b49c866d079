import JordyOS.Transport.Segment

/-!
# Integrity of the upload

Every payload byte handed to `emit` is the byte of the upload that belongs to its sequence number.
The one exception is the zero-window probe sent after the FIN: it repeats a byte of the upload at
the sequence number of the FIN.
-/

namespace JordyOS.Transport

open Machine

/-- Each payload byte of a segment is the byte of the upload at its position, or sits at `isn`. -/
def Faithful (isn txSize : UInt32) (tx : Memory) (e : Emission) : Prop :=
  ∀ j < e.length, e.sequence + UInt32.ofNat j = isn ∨
    e.sequence + UInt32.ofNat j - (isn + 1) < txSize ∧
      e.payload j = tx (e.sequence + UInt32.ofNat j - (isn + 1)).toNat

namespace Endpoint

variable {v : Endpoint}

/-- Data taken from the upload at the offset that belongs to its sequence number is faithful. -/
theorem faithful_of_offset {seq : UInt32} {flags : UInt8} {offset length : UInt32} {accepted : Bool}
    (hsequence : distance v.sender.isn seq = 1 + offset.toNat)
    (hend : offset.toNat + length.toNat ≤ v.sender.txSize.toNat)
    (hsize : v.sender.txSize.toNat ≤ tcpBuffer.toNat) :
    Faithful v.sender.isn v.sender.txSize v.sender.tx
      (v.emission seq flags (v.sender.tx.shift offset.toNat) length accepted) := by
  intro j hj
  rw [emission_length] at hj
  have hbound : v.sender.txSize.toNat ≤ 16384 := hsize
  have hposition : (seq + UInt32.ofNat j - (v.sender.isn + 1)).toNat = offset.toNat + j :=
    toNat_position hsequence (by omega)
  right
  rw [emission_sequence, emission_payload _ _ _ _ _ _ hj, UInt32.lt_iff_toNat_lt, hposition]
  exact ⟨by omega, rfl⟩

theorem faithful_of_empty {isn txSize : UInt32} {tx : Memory} {seq : UInt32} {flags : UInt8}
    {data : Memory} {accepted : Bool} :
    Faithful isn txSize tx (v.emission seq flags data 0 accepted) := by
  intro j hj
  rw [emission_length] at hj
  exact absurd hj (Nat.not_lt_zero j)

theorem Resends.faithful {e : Emission} (h : Resends v e) (hsound : v.Sound) :
    Faithful v.sender.isn v.sender.txSize v.sender.tx e := by
  cases h with
  | control => exact faithful_of_empty
  | queued i accepted hstate hused =>
    rcases hstate with hsyn | hlive
    · have hslot := ((hsound.opening hsyn).syn i hused).2.1
      rw [hslot]
      exact faithful_of_empty
    · have hqueue := hsound.queue hlive
      rcases hqueue.entry i hused with hdata | hfin
      · have hpos : (v.sender.slots i).length ≠ 0 := by
          intro hzero
          have := hdata.length_pos
          rw [hzero] at this
          exact absurd this (by decide)
        rw [slotData, if_pos hpos]
        exact faithful_of_offset hdata.sequence_eq (hdata.end_le.trans hqueue.offset_le)
          hqueue.size_le
      · rw [hfin.length_eq]
        exact faithful_of_empty

theorem Sends.faithful {probing : Prop} {e : Emission} (h : Sends probing v e) (hsound : v.Sound)
    (hprobing : probing → v.sender.ownFin = false) :
    Faithful v.sender.isn v.sender.txSize v.sender.tx e := by
  cases h with
  | resend h => exact h.faithful hsound
  | syn => exact faithful_of_empty
  | probe accepted hprobe hstate =>
    have hqueue := hsound.queue hstate.live
    have hnext := hqueue.next_eq
    have hoffset := hqueue.offset_le
    have hbound : v.sender.txSize.toNat ≤ 16384 := hqueue.size_le
    rw [hprobing hprobe, Bool.toNat_false, Nat.add_zero] at hnext
    intro j hj
    rw [emission_length, UInt32.toNat_one, Nat.lt_one_iff] at hj
    subst hj
    rw [emission_sequence, emission_payload _ _ _ _ _ _ (by decide)]
    by_cases hempty : v.sender.txOffset = 0
    · left
      rw [hempty, UInt32.toNat_zero, Nat.add_zero] at hnext
      have hnext' : v.sender.next = v.sender.isn + 1 :=
        distance_inj.mp (hnext.trans (distance_add_left _ 1).symm)
      rw [hnext']
      simp
    · right
      have hpos : v.sender.txOffset.toNat ≠ 0 := fun hzero ↦ hempty (UInt32.toNat_inj.mp hzero)
      have hlast : (v.sender.txOffset - 1).toNat = v.sender.txOffset.toNat - 1 :=
        UInt32.toNat_sub_of_le _ _ (by rw [UInt32.le_iff_toNat_le, UInt32.toNat_one]; omega)
      have hsequence : distance v.sender.isn (v.sender.next - 1) =
          1 + (v.sender.txOffset.toNat - 1) := by
        rw [distance_sub, hnext, UInt32.toNat_one]
        omega
      have hbyte : v.probeByte = v.sender.tx (v.sender.txOffset - 1).toNat := if_pos hempty
      rw [UInt32.lt_iff_toNat_lt, toNat_position hsequence (by omega), Nat.add_zero, ← hlast]
      exact ⟨by omega, hbyte⟩
  | data length accepted hstate hopen hroom =>
    have hqueue := hsound.queue hstate.live
    have hnext := hqueue.next_eq
    rw [hopen, Bool.toNat_false, Nat.add_zero] at hnext
    have hroom' : (v.sender.txSize - v.sender.txOffset).toNat =
        v.sender.txSize.toNat - v.sender.txOffset.toNat :=
      UInt32.toNat_sub_of_le _ _ (UInt32.le_iff_toNat_le.mpr hqueue.offset_le)
    rw [UInt32.le_iff_toNat_le, hroom'] at hroom
    have hoffset := hqueue.offset_le
    exact faithful_of_offset hnext (by omega) hqueue.size_le
  | fin => exact faithful_of_empty

end Endpoint

/-! ## Runs -/

theorem faithful_congr {isn txSize : UInt32} {tx other : Memory} {e : Emission}
    (h : ∀ i < txSize.toNat, tx i = other i) (he : Faithful isn txSize tx e) :
    Faithful isn txSize other e := by
  intro j hj
  refine (he j hj).imp_right ?_
  rintro ⟨hlt, hbyte⟩
  exact ⟨hlt, hbyte.trans (h _ (UInt32.lt_iff_toNat_lt.mp hlt))⟩

variable {ρ : Type} (core : LarpCore ρ)

/-- A probe after the FIN carries a byte at the sequence number of the FIN. -/
theorem exists_unfaithful {c : Tcp ρ} {now : UInt64} (h : c.endpoint.Sound) (hprobes : Probes c now)
    (hfin : c.ownFin = true) :
    ∃ e ∈ (tcpTick core c now).context, ∀ tx, ¬ Faithful c.isn c.txSize tx e := by
  obtain ⟨context, heq⟩ := acknowledge_eq c
  obtain ⟨accepted, hprobe⟩ := probe_endpoint (acknowledge c) now
  have hcontext : (tcpTick core c now).context =
      (acknowledge c).endpoint.emission ((acknowledge c).next - 1) tcpAck
        (Memory.ofList [(acknowledge c).endpoint.probeByte]) 1 accepted ::
          (acknowledge c).context := by
    rw [tcpTick_of_probes core hprobes]
    exact congrArg Endpoint.context hprobe
  rw [hcontext]
  refine ⟨_, List.mem_cons_self, fun tx hfaithful ↦ ?_⟩
  have hqueue : c.sender.Queue := h.queue (Endpoint.Connected.live (v := c.endpoint) hprobes.connected)
  have hbound : c.txSize.toNat ≤ 16384 := hqueue.size_le
  have hnext : distance c.isn c.next = 1 + c.txOffset.toNat + c.ownFin.toNat := hqueue.next_eq
  have hclosed : c.txOffset = c.txSize := hqueue.closed hfin
  rw [hfin, hclosed, Bool.toNat_true] at hnext
  have hsequence : distance c.isn (c.next - 1) = 1 + c.txSize.toNat := by
    rw [distance_sub, hnext, UInt32.toNat_one]
    omega
  have hsame : (acknowledge c).next = c.next := by rw [heq]
  have hbyte := hfaithful 0 (by rw [Endpoint.emission_length]; exact Nat.one_pos)
  rw [Endpoint.emission_sequence, hsame] at hbyte
  rcases hbyte with hisn | ⟨hlt, -⟩
  · have hzero := congrArg (distance c.isn) hisn
    rw [show UInt32.ofNat 0 = 0 from rfl, UInt32.add_zero, hsequence, distance_self] at hzero
    omega
  · rw [UInt32.lt_iff_toNat_lt, toNat_position hsequence (by omega)] at hlt
    omega

/-- Every byte ever handed to `emit` is faithful exactly when no tick probes after the FIN. -/
theorem upload_faithful_iff (r : Request) (hstart : (r.connect core).state = .synSent)
    (events : List Event) :
    (∀ e ∈ (run (step core) (r.connect core) events).context, Faithful r.isn r.txSize r.tx e) ↔
      ∀ before now after, events = before ++ .tick now :: after →
        ¬ (Probes (run (step core) (r.connect core) before) now ∧
          (run (step core) (r.connect core) before).ownFin = true) := by
  constructor
  · rintro hfaithful before now after rfl ⟨hprobes, hfin⟩
    obtain ⟨e, he, hunfaithful⟩ := exists_unfaithful core (Request.sound hstart before) hprobes hfin
    rw [Request.isn_eq hstart, Request.txSize_eq hstart] at hunfaithful
    refine hunfaithful r.tx (hfaithful e ?_)
    rw [run_append, run_cons]
    exact mem_context_run core he after
  · intro hprobe
    refine run_invariant_of_steps (step core)
      (fun c ↦ ∀ e ∈ c.context, Faithful r.isn r.txSize r.tx e) ?_ ?_
    · intro e he
      have hnone : (r.connect core).context = [] :=
        congrArg Endpoint.context (Request.connect_endpoint hstart).2
      rw [hnone] at he
      cases he
    · intro before event after hsplit hbefore e he
      obtain ⟨sent, hcontext, hsent⟩ := step_extends core (run (step core) (r.connect core) before) event
      have hcontext' : (step core (run (step core) (r.connect core) before) event).context =
          sent ++ (run (step core) (r.connect core) before).context := hcontext
      rw [hcontext'] at he
      rcases List.mem_append.mp he with he | he
      · have hfaithful : Faithful (run (step core) (r.connect core) before).isn
            (run (step core) (r.connect core) before).txSize
            (run (step core) (r.connect core) before).tx e := by
          refine (hsent e he).faithful (Request.sound hstart before) ?_
          rintro ⟨now, rfl, hprobes⟩
          exact Bool.eq_false_iff.mpr fun hfin ↦ hprobe before now after hsplit ⟨hprobes, hfin⟩
        rw [Request.isn_eq hstart, Request.txSize_eq hstart] at hfaithful
        exact faithful_congr (fun i hi ↦ Request.tx_eq hstart before hi) hfaithful
      · exact hbefore e he

/-! ## A probe after the FIN -/

/-- An empty upload over a callback that never fails. -/
def emptyRequest : Request where
  localPort := 1
  peerPort := 2
  isn := 100
  data := none
  size := 0
  now := 0
  emit := fun _ _ _ ↦ true

/-- The handshake, the FIN, and a window update to zero before the FIN is acknowledged. -/
def closedWindow : List Event :=
  [.tick 0, .input (peerSegment 500 101 (tcpSyn ||| tcpAck) 4096 []) 20 1000, .tick 2000000,
    .input (peerSegment 501 101 tcpAck 0 []) 20 2000000, .tick 2000001]

/-- The probe carries a byte at `isn + 1 + txSize`. -/
theorem upload_unfaithful : (emptyRequest.connect steadyCore).state = .synSent ∧
    ¬ ∀ e ∈ (run (step steadyCore) (emptyRequest.connect steadyCore) closedWindow).context,
      Faithful emptyRequest.isn emptyRequest.txSize emptyRequest.tx e := by
  refine ⟨rfl, fun hfaithful ↦ ?_⟩
  have hbyte := hfaithful
    ((run (step steadyCore) (emptyRequest.connect steadyCore) closedWindow).context.get
      ⟨0, by decide⟩) (List.get_mem _ _) 0 (by decide)
  rcases hbyte with hisn | ⟨hlt, -⟩
  · exact absurd hisn (by decide)
  · exact absurd hlt (by decide)

theorem upload_faithful_iff_closedWindow :
    (∀ e ∈ (run (step steadyCore) (emptyRequest.connect steadyCore) closedWindow).context,
      Faithful emptyRequest.isn emptyRequest.txSize emptyRequest.tx e) ↔
      ∀ before now after, closedWindow = before ++ .tick now :: after →
        ¬ (Probes (run (step steadyCore) (emptyRequest.connect steadyCore) before) now ∧
          (run (step steadyCore) (emptyRequest.connect steadyCore) before).ownFin = true) :=
  upload_faithful_iff steadyCore emptyRequest rfl closedWindow

end JordyOS.Transport
