import JordyOS.Transport.Invariant

/-!
# Outstanding segments

The retransmission queue of an open connection, in the words of the connection record.
-/

namespace JordyOS.Transport

open Machine

variable {ρ : Type}

/-! ## The oldest slot -/

theorem oldest_le {c : Tcp ρ} {d : Fin tcpSlots → ℕ}
    (hd : ∀ i j, (c.pending i).used = true → (c.pending j).used = true →
      (before (c.pending i).sequence (c.pending j).sequence = true ↔ d i < d j))
    {j : Fin tcpSlots} (hj : (c.pending j).used = true) :
    ∃ i, oldest c = some i ∧ (c.pending i).used = true ∧ d i ≤ d j := by
  have hscan : ∀ slots : List (Fin tcpSlots),
      (∀ i, slots.foldl (older c) none = some i → (c.pending i).used = true) ∧
      ∀ j ∈ slots, (c.pending j).used = true →
        ∃ i, slots.foldl (older c) none = some i ∧ d i ≤ d j := by
    intro slots
    induction slots using List.reverseRecOn with
    | nil => simp
    | append_singleton slots slot ih =>
      obtain ⟨hused, hleast⟩ := ih
      rw [List.foldl_append, List.foldl_cons, List.foldl_nil]
      generalize slots.foldl (older c) none = s at hused hleast ⊢
      unfold older
      by_cases hslot : ((c.pending slot).used && s.all fun j ↦
          before (c.pending slot).sequence (c.pending j).sequence) = true
      · rw [if_pos hslot]
        rw [Bool.and_eq_true, Option.all_eq_true] at hslot
        refine ⟨fun i hi ↦ by cases hi; exact hslot.1, ?_⟩
        intro j hj hjused
        refine ⟨slot, rfl, ?_⟩
        rcases List.mem_append.mp hj with hj | hj
        · obtain ⟨i, rfl, hi⟩ := hleast j hj hjused
          exact ((hd slot i hslot.1 (hused i rfl)).mp (hslot.2 i rfl)).le.trans hi
        · rw [List.mem_singleton.mp hj]
      · rw [if_neg hslot]
        refine ⟨hused, ?_⟩
        intro j hj hjused
        rcases List.mem_append.mp hj with hj | hj
        · exact hleast j hj hjused
        · rw [List.mem_singleton.mp hj] at hjused ⊢
          cases s with
          | none => simp [hjused] at hslot
          | some i =>
            have hbefore : ¬ before (c.pending slot).sequence (c.pending i).sequence = true := by
              simpa [hjused] using hslot
            rw [hd slot i hjused (hused i rfl)] at hbefore
            exact ⟨i, rfl, not_lt.mp hbefore⟩
  obtain ⟨hused, hleast⟩ := hscan (List.finRange tcpSlots)
  obtain ⟨i, hi, hle⟩ := hleast j (List.mem_finRange j) hj
  exact ⟨i, hi, hused i hi, hle⟩

theorem oldest_eq_none {c : Tcp ρ} (h : ∀ i, (c.pending i).used = false) : oldest c = none := by
  cases hold : oldest c with
  | none => rfl
  | some i =>
    have hused := oldest_used hold
    rw [h i] at hused
    cases hused

/-- The oldest slot of a queue that is not empty starts at `una`. -/
theorem exists_oldest {c : Tcp ρ} (hqueue : c.sender.Queue) (hopen : c.una ≠ c.next) :
    ∃ i, oldest c = some i ∧ (c.pending i).used = true ∧ (c.pending i).sequence = c.una := by
  have hlt : distance c.isn c.una < distance c.isn c.next :=
    lt_of_le_of_ne hqueue.una_le fun heq ↦ hopen (distance_inj.mp heq)
  obtain ⟨j, last, hpiece, -, -⟩ := hqueue.tiles.exists_first hlt
  have hj := Sender.used_of_piece hpiece
  rw [Sender.piece_of_used hj, Option.some.injEq, Prod.mk.injEq] at hpiece
  have horder : ∀ i j, (c.pending i).used = true → (c.pending j).used = true →
      (before (c.pending i).sequence (c.pending j).sequence = true ↔
        distance c.isn (c.pending i).sequence < distance c.isn (c.pending j).sequence) := by
    intro i j hi hj
    have hnext := hqueue.next_lt
    have hfirst := hqueue.slot_le hi
    have hsecond := hqueue.slot_le hj
    exact before_iff_distance (by simp_all; omega) (by simp_all; omega)
  obtain ⟨i, hold, hused, hle⟩ := oldest_le horder hj
  refine ⟨i, hold, hused, distance_inj.mp (le_antisymm (hle.trans hpiece.1.le) ?_)⟩
  exact (hqueue.slot_le hused).1

/-! ## The queue of an open connection -/

structure Outstanding (c : Tcp ρ) : Prop where
  /-- Measured from `isn`, every position of `[una, next)` lies in exactly one slot in use. -/
  tiles : Tiles c.sender.piece (distance c.isn c.una) (distance c.isn c.next)
  /-- In the order of their sequence numbers each slot in use starts where the one before ends. -/
  ordered : ∃ order : List (Fin tcpSlots), order.Nodup ∧
    (∀ i, i ∈ order ↔ (c.pending i).used = true) ∧
    Chain c.sender.piece (distance c.isn c.una) order (distance c.isn c.next)
  data : ∀ i, (c.pending i).used = true → has (c.pending i).flags tcpFin = false →
    1 ≤ (c.pending i).length.toNat ∧ (c.pending i).length.toNat ≤ c.mss.toNat ∧
      (c.pending i).offset = (c.pending i).sequence - c.isn - 1 ∧
      (c.pending i).offset.toNat + (c.pending i).length.toNat ≤ c.txOffset.toNat
  offset_le : c.txOffset.toNat ≤ c.txSize.toNat
  fin : ∀ i, (c.pending i).used = true → has (c.pending i).flags tcpFin = true →
    (c.pending i).length = 0 ∧ (c.pending i).sequence = c.isn + 1 + c.txSize ∧
      (c.pending i).sequence + 1 = c.next ∧
      ∀ j, (c.pending j).used = true → j ≠ i →
        distance c.isn (c.pending j).sequence < distance c.isn (c.pending i).sequence
  txOffset_eq : c.txOffset = c.next - c.isn - 1 - (if c.ownFin then 1 else 0)
  delivered_eq : c.delivered = c.una - c.isn - 1 - (if c.ownFinAcked then 1 else 0)
  ownFin_iff : c.ownFin = true ↔ c.state = .closing
  oldest_eq : c.una ≠ c.next →
    ∃ i, oldest c = some i ∧ (c.pending i).used = true ∧ (c.pending i).sequence = c.una

/-- A word that is `1 + n` above `base`, or one more, read backwards. -/
theorem eq_sub_of_distance {base word n : UInt32} (flag : Bool)
    (h : distance base word = 1 + n.toNat + flag.toNat) :
    n = word - base - 1 - (if flag then 1 else 0) := by
  apply UInt32.toNat_inj.mp
  have hn := n.toNat_lt
  have hword := (word - base).toNat_lt
  unfold distance at h
  cases flag <;>
    simp only [if_true, if_false, Bool.false_eq_true, UInt32.toNat_sub, UInt32.toNat_one,
      UInt32.toNat_zero, Bool.toNat_true, Bool.toNat_false] at h hword ⊢ <;> omega

theorem Sender.Queue.slot_of_fin {s : Sender} (h : s.Queue) {i : Fin tcpSlots}
    (hused : (s.slots i).used = true) (hfin : has (s.slots i).flags tcpFin = true) :
    s.IsFin (s.slots i) := by
  refine (h.entry i hused).resolve_left fun hdata ↦ ?_
  rw [hdata.not_fin] at hfin
  cases hfin

theorem Sender.Queue.slot_of_data {s : Sender} (h : s.Queue) {i : Fin tcpSlots}
    (hused : (s.slots i).used = true) (hdata : has (s.slots i).flags tcpFin = false) :
    s.IsData (s.slots i) := by
  refine (h.entry i hused).resolve_right fun hfin ↦ ?_
  rw [hfin.fin] at hdata
  cases hdata

/-- The slot of the FIN ends at `next`. -/
theorem Sender.Queue.fin_end {s : Sender} (h : s.Queue) {x : Slot} (hx : s.IsFin x) :
    distance s.isn x.sequence + 1 = distance s.isn s.next := by
  rw [h.next_eq, hx.sequence_eq, hx.ownFin_eq, h.closed hx.ownFin_eq]
  rfl

/-- Two slots in use that start at different positions do not overlap. -/
theorem Sender.Queue.slots_apart {s : Sender} (h : s.Queue) {i j : Fin tcpSlots}
    (hi : (s.slots i).used = true) (hj : (s.slots j).used = true) (hne : j ≠ i) :
    distance s.isn (s.slots j).sequence ≠ distance s.isn (s.slots i).sequence := fun heq ↦
  hne (h.tiles.eq_of_start (Sender.piece_of_used hj) (Sender.piece_of_used hi) heq)

theorem outstanding_of_sound {c : Tcp ρ} (h : c.endpoint.Sound)
    (hstate : c.state = .established ∨ c.state = .closing) : Outstanding c := by
  have hconnected : c.endpoint.Connected := hstate
  have hqueue : c.sender.Queue := h.queue hconnected.live
  refine
    { tiles := hqueue.tiles
      ordered := ?_
      data := ?_
      offset_le := hqueue.offset_le
      fin := ?_
      txOffset_eq := eq_sub_of_distance c.ownFin hqueue.next_eq
      delivered_eq := eq_sub_of_distance c.ownFinAcked hqueue.una_eq
      ownFin_iff := (h.closing_iff hconnected).symm
      oldest_eq := ?_ }
  · obtain ⟨order, hnodup, hmem, hchain⟩ := hqueue.tiles.exists_chain hqueue.una_le
    refine ⟨order, hnodup, fun i ↦ ?_, hchain⟩
    rw [hmem, Sender.piece]
    cases hused : (c.pending i).used <;> simp [hused]
  · intro i hused hdata
    have hslot := hqueue.slot_of_data hused hdata
    exact ⟨hslot.length_pos, hslot.length_le,
      by simpa using eq_sub_of_distance false hslot.sequence_eq, hslot.end_le⟩
  · intro i hused hfin
    have hslot := hqueue.slot_of_fin hused hfin
    have hend := hqueue.fin_end hslot
    have hsize : c.txSize.toNat ≤ 16384 := hqueue.size_le
    refine ⟨hslot.length_eq, ?_, ?_, ?_⟩
    · have hstart : distance c.isn (c.isn + 1 + c.txSize) = 1 + c.txSize.toNat := by
        rw [UInt32.add_assoc, distance_add_left, UInt32.toNat_add, UInt32.toNat_one,
          Nat.mod_eq_of_lt (by omega)]
      exact distance_inj.mp (hslot.sequence_eq.trans hstart.symm)
    · have hnext := hqueue.next_lt
      refine distance_inj.mp ((distance_add_of_lt ?_).trans hend)
      rw [UInt32.toNat_one]
      exact (hend.trans_lt hnext).trans (by norm_num)
    · intro j hj hne
      have hother := hqueue.slot_le hj
      have hapart := hqueue.slots_apart hused hj hne
      simp only [Tcp.sender_isn, Tcp.sender_slots, Tcp.sender_next, TcpSegment.slot_sequence]
        at hother hapart hend
      omega
  · exact exists_oldest hqueue

variable (core : LarpCore ρ)

/-- In every state a sequence of calls can reach, the retransmission queue of an open connection
covers exactly what is sent and not acknowledged. -/
theorem outstanding_of_run (calls : List Call)
    (hstate : (run (perform core) (zeroed core) calls).state = .established ∨
      (run (perform core) (zeroed core) calls).state = .closing) :
    Outstanding (run (perform core) (zeroed core) calls) :=
  outstanding_of_sound (sound_run core calls) hstate

/-- Two bytes are sent after the handshake and wait for their acknowledgement. -/
def oneSegment : List Call :=
  [.start 1 2 100 (some (Memory.ofList [7, 8])) 2 0 (fun _ _ _ ↦ true) [], .event (.tick 0),
    .event (.input (peerSegment 500 101 (tcpSyn ||| tcpAck) 4096 []) 20 1000), .event (.tick 2000)]

theorem outstanding_of_run_oneSegment :
    Outstanding (run (perform steadyCore) (zeroed steadyCore) oneSegment) :=
  outstanding_of_run steadyCore oneSegment (Or.inl rfl)

end JordyOS.Transport
