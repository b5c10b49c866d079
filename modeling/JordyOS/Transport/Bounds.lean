import JordyOS.Net.Access
import JordyOS.Transport.Options
import JordyOS.Transport.Reception

/-!
# The accesses of `tcp_input`

`tcp_input` once more, on a segment whose size is known and with every access checked: a read outside the
segment, a write outside the receive buffer and a walk over the options that does not end have no result.
The checked function has a result on every segment, the one of `tcp_input`.
-/

namespace JordyOS.Transport

open Machine Net

variable {ρ : Type} (core : LarpCore ρ)

/-- A segment of which only the window field is known. -/
def windowField (window : UInt16) : Memory := netWrite16 Memory.zero 14 window

/-! ## The function -/

/-- The walk over the options; it has no result when it reads behind the segment or when the fuel does not
last, and the result `none` when an option is malformed. -/
def checkedOptions (bytes : List UInt8) (header : ℕ) : ℕ → ℕ → UInt32 → Option (Option UInt32)
  | 0, _, _ => none
  | fuel + 1, i, mss =>
    if i ≥ header then some (some mss) else do
    let kind ← readByte bytes i
    if kind = 0 then some (some mss) else
    if kind = 1 then checkedOptions bytes header fuel (i + 1) mss else
    if i + 1 ≥ header then some none else do
    let length ← readByte bytes (i + 1)
    if length < 2 ∨ i + length.toNat > header then some none else
    if kind = 2 then
      if length ≠ 4 then some none else do
      let offer ← readWord16 bytes (i + 2)
      if offer = 0 then some none else
      checkedOptions bytes header fuel (i + length.toNat) (min32 mss offer.toUInt32)
    else checkedOptions bytes header fuel (i + length.toNat) mss

def checkedSynSent (c : Tcp ρ) (bytes : List UInt8) (header : ℕ) (seq a : UInt32) (flags : UInt8)
    (length : UInt32) (now : UInt64) : Option (Tcp ρ) :=
  if has flags tcpRst && has flags tcpAck && a == c.isn + 1 then
    some (tcpAbort c "connection refused")
  else if flags &&& (tcpSyn ||| tcpAck ||| tcpRst ||| tcpFin) ≠ tcpSyn ||| tcpAck ∨
      a ≠ c.isn + 1 ∨ c.next ≠ a ∨ length ≠ 0 then some c
  else do
    match ← checkedOptions bytes header header 20 tcpMss with
    | none => some c
    | some mss =>
      let window ← readWord16 bytes 14
      let c := handshakeTimer core (answered c (windowField window) seq a mss) (c.pending 0) now
      some { c with state := .established, ackPending := true, deliveredUs := now }

/-- Store the payload that lies at `offset` in the segment. -/
def checkedStore (c : Tcp ρ) (bytes : List UInt8) (offset : ℕ) (seq : UInt32) (flags : UInt8)
    (length : UInt32) : Option (Tcp ρ) :=
  if !c.peerFin && seq == c.receiveNext then
    if length > tcpBuffer - c.rxSize
    then some (tcpAbort { c with ackPending := true } "receive file exceeds 16 KiB")
    else do
      let data ← readBytes bytes offset length.toNat
      let rx ← writeBytes c.rx 16384 c.rxSize.toNat data
      some
        { c with
          ackPending := true
          rx := rx
          rxSize := c.rxSize + length
          receiveNext := c.receiveNext + length + (if has flags tcpFin then 1 else 0)
          peerFin := c.peerFin || has flags tcpFin }
  else some { c with ackPending := true }

def checkedReceive (c : Tcp ρ) (bytes : List UInt8) (header : ℕ) (seq : UInt32) (flags : UInt8)
    (length : UInt32) : Option (Tcp ρ) :=
  let trim := overlap c.receiveNext seq length
  checkedStore c bytes (trim.toNat + header) (seq + trim) flags (length - trim)

def checkedAccepted (c : Tcp ρ) (bytes : List UInt8) (header : ℕ) (seq a : UInt32) (flags : UInt8)
    (length : UInt32) (now : UInt64) : Option (Tcp ρ) := do
  let window ← readWord16 bytes 14
  let (c, windowChanged) := windowUpdate c (windowField window) seq a
  let c := if a ≠ c.una ∨ (length = 0 ∧ !has flags tcpFin ∧ !windowChanged)
    then ack core c a now else c
  if length ≠ 0 ∨ has flags tcpFin then checkedReceive c bytes header seq flags length else some c

def checkedStream (c : Tcp ρ) (bytes : List UInt8) (header : ℕ) (seq a : UInt32) (flags : UInt8)
    (length : UInt32) (now : UInt64) : Option (Tcp ρ) :=
  if has flags tcpRst then
    if seq = c.receiveNext then some { c with state := .failed, error := some "peer reset" }
    else some { c with ackPending := true }
  else if has flags tcpSyn && has flags tcpAck && seq + 1 == c.receiveNext && a == c.isn + 1 then
    some { c with ackPending := true }
  else if has flags tcpSyn || !has flags tcpAck then some c
  else if !acceptable c.receiveNext c.rxSize seq length flags then some { c with ackPending := true }
  else if before c.next a then some { c with invalidAcks := c.invalidAcks + 1, ackPending := true }
  else if before a c.una then some c
  else checkedAccepted core c bytes header seq a flags length now

/-- The checks on the fixed header and the ports, in the order of the source. -/
def checkedAddressed (c : Tcp ρ) (bytes : List UInt8) : Option Bool :=
  if bytes.length < 20 then some false else do
  let offset ← readByte bytes 12
  if offset >>> 4 < 5 ∨ (offset >>> 4).toNat * 4 > bytes.length then some false else do
  let source ← readWord16 bytes 0
  if source ≠ c.peerPort then some false else do
  let destination ← readWord16 bytes 2
  some (destination == c.localPort)

def checkedInput (c : Tcp ρ) (bytes : List UInt8) (now : UInt64) : Option (Tcp ρ) := do
  let addressed ← checkedAddressed c bytes
  if !addressed then some c else do
  let offset ← readByte bytes 12
  let header := (offset >>> 4).toNat * 4
  let seq ← readWord32 bytes 4
  let a ← readWord32 bytes 8
  let flags ← readByte bytes 13
  let length := UInt32.ofNat (bytes.length - header)
  if c.state = .synSent then checkedSynSent core c bytes header seq a flags length now
  else if c.state ≠ .established ∧ c.state ≠ .closing ∧ c.state ≠ .done then some c
  else checkedStream core c bytes header seq a flags length now

variable {bytes : List UInt8}

/-- Reading the window back. -/
theorem netRead16_windowField (window : UInt16) : netRead16 ((windowField window).shift 14) = window :=
  netRead16_netWrite16 Memory.zero 14 window

theorem answered_windowField (c : Tcp ρ) (b : Memory) (seq a mss : UInt32) :
    answered c (windowField (netRead16 (b.shift 14))) seq a mss = answered c b seq a mss := by
  unfold answered
  rw [netRead16_windowField]

theorem windowUpdate_windowField (c : Tcp ρ) (b : Memory) (seq a : UInt32) :
    windowUpdate c (windowField (netRead16 (b.shift 14))) seq a = windowUpdate c b seq a := by
  unfold windowUpdate
  rw [netRead16_windowField]

/-! ## Every access is inside -/

/-- The walk ends, and it reads options of the header only. -/
theorem checkedOptions_eq {header fuel i : ℕ} {mss : UInt32} (hheader : header ≤ bytes.length)
    (hi : i ≤ header) (hfuel : header < i + fuel) :
    checkedOptions bytes header fuel i mss = some (synOptions (Memory.ofList bytes) header fuel i mss) := by
  induction fuel generalizing i mss with
  | zero => omega
  | succ fuel ih =>
    unfold checkedOptions synOptions
    dsimp only
    by_cases hin : i ≥ header
    · rw [if_pos hin, if_pos hin]
    rw [if_neg hin, if_neg hin, readByte_of_lt (by omega)]
    dsimp only [Option.bind_eq_bind, Option.bind_some]
    by_cases hend : Memory.ofList bytes i = 0
    · rw [if_pos hend, if_pos hend]
    rw [if_neg hend, if_neg hend]
    by_cases hpadding : Memory.ofList bytes i = 1
    · rw [if_pos hpadding, if_pos hpadding]
      exact ih (by omega) (by omega)
    rw [if_neg hpadding, if_neg hpadding]
    by_cases hlast : i + 1 ≥ header
    · rw [if_pos hlast, if_pos (Or.inl hlast)]
    rw [if_neg hlast, readByte_of_lt (by omega)]
    dsimp only [Option.bind_eq_bind, Option.bind_some]
    by_cases hlength : Memory.ofList bytes (i + 1) < 2 ∨
        i + (Memory.ofList bytes (i + 1)).toNat > header
    · rw [if_pos hlength, if_pos (Or.inr hlength)]
    have htwo : 2 ≤ (Memory.ofList bytes (i + 1)).toNat :=
      UInt8.le_iff_toNat_le.mp (UInt8.not_lt.mp fun hshort ↦ hlength (Or.inl hshort))
    have hfits : i + (Memory.ofList bytes (i + 1)).toNat ≤ header :=
      Nat.not_lt.mp fun hlong ↦ hlength (Or.inr hlong)
    rw [if_neg hlength, if_neg (not_or.mpr ⟨hlast, hlength⟩)]
    by_cases hkind : Memory.ofList bytes i = 2
    · rw [if_pos hkind, if_pos hkind]
      by_cases hfour : Memory.ofList bytes (i + 1) ≠ 4
      · rw [if_pos hfour, if_pos (Or.inl hfour)]
      have hsize : (Memory.ofList bytes (i + 1)).toNat = 4 := by
        rw [not_not.mp hfour]
        rfl
      rw [if_neg hfour, readWord16_of_lt (by omega)]
      dsimp only [Option.bind_eq_bind, Option.bind_some]
      by_cases hoffer : netRead16 ((Memory.ofList bytes).shift (i + 2)) = 0
      · rw [if_pos hoffer, if_pos (Or.inr hoffer)]
      · rw [if_neg hoffer, if_neg (not_or.mpr ⟨hfour, hoffer⟩)]
        exact ih hfits (by omega)
    · rw [if_neg hkind, if_neg hkind]
      exact ih hfits (by omega)

section
variable {c : Tcp ρ} {seq a : UInt32} {flags : UInt8}

theorem checkedSynSent_eq {header : ℕ} (length : UInt32) (now : UInt64) (hlow : 20 ≤ header)
    (hheader : header ≤ bytes.length) :
    checkedSynSent core c bytes header seq a flags length now =
      some (synSentInput core c (Memory.ofList bytes) header seq a flags length now) := by
  unfold checkedSynSent synSentInput
  split
  · rfl
  split
  · rfl
  rw [checkedOptions_eq hheader hlow (by omega)]
  dsimp only [Option.bind_eq_bind, Option.bind_some]
  cases synOptions (Memory.ofList bytes) header header 20 tcpMss with
  | none => rfl
  | some mss =>
    dsimp only
    rw [readWord16_of_lt (by omega)]
    dsimp only [Option.bind_eq_bind, Option.bind_some]
    rw [answered_windowField]

/-- The payload is read inside the segment and written inside the receive buffer. -/
theorem checkedStore_eq {offset : ℕ} {length : UInt32} (hsize : c.rxSize.toNat ≤ 16384)
    (hinside : offset + length.toNat ≤ bytes.length) :
    checkedStore c bytes offset seq flags length =
      some (store c ((Memory.ofList bytes).shift offset) seq flags length) := by
  unfold checkedStore store
  split
  · split
    · rfl
    · rename_i hshort
      have hroom : (tcpBuffer - c.rxSize).toNat = 16384 - c.rxSize.toNat :=
        UInt32.toNat_sub_of_le _ _ (UInt32.le_iff_toNat_le.mpr hsize)
      have hfits := UInt32.le_iff_toNat_le.mp (UInt32.not_lt.mp hshort)
      rw [readBytes_of_le hinside]
      dsimp only [Option.bind_eq_bind, Option.bind_some]
      rw [writeBytes_of_le _ _ (by omega)]
      rfl
  · rfl

theorem checkedReceive_eq {header : ℕ} {length : UInt32} (hsize : c.rxSize.toNat ≤ 16384)
    (hinside : header + length.toNat ≤ bytes.length) :
    checkedReceive c bytes header seq flags length =
      some (receive c (Memory.ofList bytes) header seq flags length) := by
  have htrim := overlap_le c.receiveNext seq length
  have hrest : (length - overlap c.receiveNext seq length).toNat =
      length.toNat - (overlap c.receiveNext seq length).toNat :=
    UInt32.toNat_sub_of_le _ _ (UInt32.le_iff_toNat_le.mpr htrim)
  unfold checkedReceive receive
  dsimp only
  rw [checkedStore_eq hsize (by omega), Memory.shift_shift]

/-- An acknowledgement is about the sending half only. -/
theorem ack_receiver (c : Tcp ρ) (a : UInt32) (now : UInt64) :
    (ack core c a now).receiver = c.receiver := by
  by_cases hrange : (before a c.una || before c.next a) = true
  · unfold ack
    rw [if_pos hrange]
    rfl
  rw [Bool.or_eq_true, not_or, Bool.not_eq_true, Bool.not_eq_true] at hrange
  by_cases hne : a = c.una
  · subst hne
    exact (ack_endpoint_of_eq core c now hrange.2).receiver_eq
  · exact congrArg Endpoint.receiver (ack_endpoint_of_ne core c now hrange.1 hrange.2 hne)

theorem checkedAccepted_eq {header : ℕ} {length : UInt32} (now : UInt64)
    (hsize : c.rxSize.toNat ≤ 16384) (hlow : 20 ≤ header)
    (hinside : header + length.toNat ≤ bytes.length) :
    checkedAccepted core c bytes header seq a flags length now =
      some (acceptedInput core c (Memory.ofList bytes) header seq a flags length now) := by
  have hwindow : (windowUpdate c (Memory.ofList bytes) seq a).1.rxSize = c.rxSize := rfl
  unfold checkedAccepted acceptedInput
  rw [readWord16_of_lt (by omega)]
  dsimp only [Option.bind_eq_bind, Option.bind_some]
  rw [windowUpdate_windowField]
  generalize windowUpdate c (Memory.ofList bytes) seq a = r at hwindow ⊢
  obtain ⟨d, changed⟩ := r
  dsimp only at hwindow ⊢
  have hacked : (if a ≠ d.una ∨ (length = 0 ∧ !has flags tcpFin ∧ !changed)
      then ack core d a now else d).rxSize = c.rxSize := by
    split
    · exact (congrArg Receiver.rxSize (ack_receiver core d a now)).trans hwindow
    · exact hwindow
  generalize (if a ≠ d.una ∨ (length = 0 ∧ !has flags tcpFin ∧ !changed)
    then ack core d a now else d) = w at hacked ⊢
  split
  · exact checkedReceive_eq (by rw [hacked]; exact hsize) hinside
  · rfl

theorem checkedStream_eq {header : ℕ} {length : UInt32} (now : UInt64)
    (hsize : c.rxSize.toNat ≤ 16384) (hlow : 20 ≤ header)
    (hinside : header + length.toNat ≤ bytes.length) :
    checkedStream core c bytes header seq a flags length now =
      some (streamInput core c (Memory.ofList bytes) header seq a flags length now) := by
  unfold checkedStream streamInput
  split
  · split <;> rfl
  split
  · rfl
  split
  · rfl
  split
  · rfl
  split
  · rfl
  split
  · rfl
  exact checkedAccepted_eq core now hsize hlow hinside

end

theorem checkedAddressed_eq (c : Tcp ρ) (bytes : List UInt8) :
    checkedAddressed c bytes = some (addressed c (Memory.ofList bytes) bytes.length) := by
  unfold checkedAddressed addressed headerLength
  split
  · rename_i hshort
    rw [decide_eq_true hshort]
    rfl
  rename_i hlong
  rw [decide_eq_false hlong, readByte_of_lt (by omega)]
  dsimp only [Option.bind_eq_bind, Option.bind_some]
  split
  · rename_i hheader
    rcases hheader with hheader | hheader
    · rw [decide_eq_true hheader]
      rfl
    · rw [decide_eq_true hheader, Bool.or_true]
      rfl
  rename_i hheader
  obtain ⟨hlow, hhigh⟩ := not_or.mp hheader
  rw [decide_eq_false hlow, decide_eq_false hhigh, readWord16_of_lt (by omega)]
  dsimp only [Option.bind_eq_bind, Option.bind_some]
  rw [Memory.shift_zero]
  split
  · rename_i hport
    rw [bne_iff_ne.mpr hport]
    rfl
  · rename_i hport
    rw [not_not] at hport
    rw [readWord16_of_lt (by omega), hport, bne_self_eq_false]
    simp [bne]

/-- A segment that is for the connection holds its header. -/
theorem header_of_addressed {c : Tcp ρ} {b : Memory} {size : ℕ} (h : addressed c b size = true) :
    20 ≤ headerLength b ∧ headerLength b ≤ size := by
  unfold addressed at h
  simp only [Bool.not_eq_true', Bool.or_eq_false_iff, decide_eq_false_iff_not] at h
  obtain ⟨⟨⟨⟨-, hoffset⟩, hheader⟩, -⟩, -⟩ := h
  have hfive : (5 : UInt8).toNat ≤ (b 12 >>> 4).toNat :=
    UInt8.le_iff_toNat_le.mp (UInt8.not_lt.mp hoffset)
  have hfive' : (5 : UInt8).toNat = 5 := rfl
  unfold headerLength at hheader ⊢
  omega

theorem checkedInput_eq (c : Tcp ρ) (bytes : List UInt8) (now : UInt64)
    (hbytes : bytes.length < 2 ^ 16) (hsize : c.rxSize.toNat ≤ 16384) :
    checkedInput core c bytes now = some (tcpInput core c (Memory.ofList bytes) bytes.length now) := by
  unfold checkedInput tcpInput
  rw [checkedAddressed_eq]
  dsimp only [Option.bind_eq_bind, Option.bind_some]
  split
  · rfl
  rename_i haddressed
  rw [Bool.not_eq_true', Bool.not_eq_false] at haddressed
  obtain ⟨hlow, hheader⟩ := header_of_addressed haddressed
  have hlength : (UInt32.ofNat (bytes.length - headerLength (Memory.ofList bytes))).toNat =
      bytes.length - headerLength (Memory.ofList bytes) := by
    rw [UInt32.toNat_ofNat', Nat.mod_eq_of_lt (by omega)]
  rw [readByte_of_lt (by omega), readWord32_of_lt (by omega), readWord32_of_lt (by omega),
    readByte_of_lt (by omega)]
  dsimp only [Option.bind_eq_bind, Option.bind_some]
  split
  · exact checkedSynSent_eq core _ now hlow hheader
  split
  · rfl
  · refine checkedStream_eq core now hsize hlow ?_
    change headerLength (Memory.ofList bytes) +
      (UInt32.ofNat (bytes.length - headerLength (Memory.ofList bytes))).toNat ≤ bytes.length
    omega

/-! ## The receive buffer -/

/-- A segment changes nothing behind the receive buffer. -/
theorem Endpoint.Received.rx_above {v w : Endpoint} {x : Segment} (h : Endpoint.Received v x w)
    (hv : v.receiver.rxSize.toNat ≤ 16384) {i : ℕ} (hi : 16384 ≤ i) :
    w.receiver.rx i = v.receiver.rx i := by
  cases h with
  | empty => rfl
  | skip => rfl
  | overflow _ _ _ h => rw [h.receiver_eq]
  | store _ _ hlength =>
    have hle := (Receiver.toNat_store_rxSize hv hlength).2
    exact Memory.copy_above _ _ (hle.trans hi)

theorem Endpoint.Input.rx_above {v w : Endpoint} {x : Segment} (h : Endpoint.Input v x w)
    (hv : v.receiver.rxSize.toNat ≤ 16384) {i : ℕ} (hi : 16384 ≤ i) :
    w.receiver.rx i = v.receiver.rx i := by
  cases h with
  | ignore => rfl
  | refuse => rfl
  | establish => rfl
  | note => rfl
  | reset => rfl
  | stream _ hacked hreceived =>
    rw [hreceived.rx_above (hacked.receiver_eq ▸ hv) hi, hacked.receiver_eq]

/-! ## Before the handshake -/

/-- The RST that refuses our SYN. -/
structure Refusal (c : Tcp ρ) (bytes : List UInt8) : Prop where
  addressed : addressed c (Memory.ofList bytes) bytes.length = true
  isRst : has (Memory.ofList bytes 13) tcpRst = true
  isAck : has (Memory.ofList bytes 13) tcpAck = true
  acknowledgement : netRead32 ((Memory.ofList bytes).shift 8) = c.isn + 1

/-- A SYN/ACK that answers our SYN, with a well-formed option list. -/
structure SynAck (c : Tcp ρ) (bytes : List UInt8) (offers : List UInt16) : Prop where
  addressed : addressed c (Memory.ofList bytes) bytes.length = true
  answers : c.endpoint.Answers (readSegment (Memory.ofList bytes) bytes.length)
  options : Options (bytes.drop 20) offers

section
variable {c : Tcp ρ}

/-- Without payload the header is the whole segment. -/
theorem header_eq (hbytes : bytes.length < 2 ^ 16)
    (haddressed : addressed c (Memory.ofList bytes) bytes.length = true)
    (hempty : UInt32.ofNat (bytes.length - headerLength (Memory.ofList bytes)) = 0) :
    headerLength (Memory.ofList bytes) = bytes.length := by
  obtain ⟨-, hheader⟩ := header_of_addressed haddressed
  have hlength : (UInt32.ofNat (bytes.length - headerLength (Memory.ofList bytes))).toNat =
      bytes.length - headerLength (Memory.ofList bytes) := by
    rw [UInt32.toNat_ofNat', Nat.mod_eq_of_lt (by omega)]
  rw [hempty, UInt32.toNat_zero] at hlength
  omega

/-- Any other segment leaves the connection as it is, however late in its options the defect lies. -/
theorem tcpInput_of_no_answer (now : UInt64) (hbytes : bytes.length < 2 ^ 16)
    (hstate : c.state = .synSent) (hrefusal : ¬ Refusal c bytes)
    (hsynAck : ∀ offers, ¬ SynAck c bytes offers) :
    tcpInput core c (Memory.ofList bytes) bytes.length now = c := by
  unfold tcpInput
  split
  · rfl
  rename_i haddressed
  rw [Bool.not_eq_true', Bool.not_eq_false] at haddressed
  dsimp only
  unfold synSentInput
  split
  · rename_i hreset
    rw [Bool.and_eq_true, Bool.and_eq_true, beq_iff_eq] at hreset
    exact absurd ⟨haddressed, hreset.1.1, hreset.1.2, hreset.2⟩ hrefusal
  split
  · rfl
  rename_i hanswer
  simp only [not_or, not_not] at hanswer
  obtain ⟨hflags, hack, hnext, hempty⟩ := hanswer
  rw [header_eq hbytes haddressed hempty]
  split
  · rfl
  rename_i mss hmss
  obtain ⟨offers, hoptions, -⟩ := (synOptions_iff bytes tcpMss mss).mp hmss
  exact absurd ⟨haddressed, ⟨hstate, hflags, hack, hnext, hempty⟩, hoptions⟩ (hsynAck offers)

/-- A SYN/ACK carries no RST. -/
theorem not_rst_of_synAck {flags : UInt8}
    (h : flags &&& (tcpSyn ||| tcpAck ||| tcpRst ||| tcpFin) = tcpSyn ||| tcpAck) :
    has flags tcpRst = false := by
  have hmask : flags &&& tcpRst = 0 :=
    calc flags &&& tcpRst
        = flags &&& (tcpSyn ||| tcpAck ||| tcpRst ||| tcpFin) &&& tcpRst := by
          rw [UInt8.and_assoc]
          rfl
      _ = 0 := by
          rw [h]
          rfl
  unfold has
  rw [hmask]
  rfl

/-- The handshake ends with the smallest segment size offered. -/
theorem tcpInput_of_synAck (now : UInt64) (hbytes : bytes.length < 2 ^ 16) {offers : List UInt16}
    (h : SynAck c bytes offers) :
    (tcpInput core c (Memory.ofList bytes) bytes.length now).state = .established ∧
      (tcpInput core c (Memory.ofList bytes) bytes.length now).mss.toUInt32 = agreed tcpMss offers ∧
      1 ≤ (tcpInput core c (Memory.ofList bytes) bytes.length now).mss.toNat ∧
      (tcpInput core c (Memory.ofList bytes) bytes.length now).mss.toNat ≤ 536 := by
  have hstate : c.state = .synSent := h.answers.state
  have hflags : Memory.ofList bytes 13 &&& (tcpSyn ||| tcpAck ||| tcpRst ||| tcpFin) = tcpSyn ||| tcpAck :=
    h.answers.flags
  have hack : netRead32 ((Memory.ofList bytes).shift 8) = c.isn + 1 := h.answers.acknowledgement
  have hnext : c.next = netRead32 ((Memory.ofList bytes).shift 8) := h.answers.next
  have hempty : UInt32.ofNat (bytes.length - headerLength (Memory.ofList bytes)) = 0 := h.answers.length
  have hrst : has (Memory.ofList bytes 13) tcpRst = false := not_rst_of_synAck hflags
  have hoptions := (synOptions_iff bytes tcpMss (agreed tcpMss offers)).mpr ⟨offers, h.options, rfl⟩
  obtain ⟨hlow, hhigh⟩ := synOptions_le (by decide) le_rfl hoptions
  have hmss : (agreed tcpMss offers).toUInt16.toNat = (agreed tcpMss offers).toNat := by
    have hbound : (agreed tcpMss offers).toNat ≤ 536 := hhigh
    rw [UInt32.toNat_toUInt16]
    omega
  have hsame : tcpInput core c (Memory.ofList bytes) bytes.length now =
      { handshakeTimer core (answered c (Memory.ofList bytes) (netRead32 ((Memory.ofList bytes).shift 4))
          (netRead32 ((Memory.ofList bytes).shift 8)) (agreed tcpMss offers)) (c.pending 0) now with
        state := .established, ackPending := true, deliveredUs := now } := by
    unfold tcpInput
    rw [h.addressed, if_neg (by decide)]
    dsimp only
    rw [if_pos hstate]
    unfold synSentInput
    rw [hrst, Bool.false_and, Bool.false_and, if_neg Bool.false_ne_true,
      if_neg (not_or.mpr ⟨not_not.mpr hflags, not_or.mpr ⟨not_not.mpr hack,
        not_or.mpr ⟨not_not.mpr hnext, not_not.mpr hempty⟩⟩⟩),
      header_eq hbytes h.addressed hempty, hoptions]
  have htimer : (handshakeTimer core (answered c (Memory.ofList bytes)
      (netRead32 ((Memory.ofList bytes).shift 4)) (netRead32 ((Memory.ofList bytes).shift 8))
      (agreed tcpMss offers)) (c.pending 0) now).mss = (agreed tcpMss offers).toUInt16 :=
    congrArg (fun v ↦ v.sender.mss) (handshakeTimer_endpoint core _ (c.pending 0) now)
  rw [hsame]
  dsimp only
  rw [htimer, hmss]
  refine ⟨rfl, UInt32.toNat_inj.mp ?_, hlow, hhigh⟩
  rw [UInt16.toNat_toUInt32, hmss]

end

/-! ## Safety -/

/-- In every connection that calls can reach, `tcp_input` is safe on every byte string: all its accesses
stay inside the segment and the receive buffer, and only a whole and correct answer to our SYN, or its
refusal, has an effect before the handshake. -/
theorem tcpInput_safe (calls : List Call) (bytes : List UInt8) (now : UInt64)
    (hbytes : bytes.length < 2 ^ 16) :
    let c := run (perform core) (zeroed core) calls
    let d := tcpInput core c (Memory.ofList bytes) bytes.length now
    checkedInput core c bytes now = some d ∧ (∀ i ≥ 16384, d.rx i = c.rx i) ∧
      (c.state = .synSent → ¬ Refusal c bytes → (∀ offers, ¬ SynAck c bytes offers) → d = c) ∧
      (∀ offers, SynAck c bytes offers → d.state = .established ∧
        d.mss.toUInt32 = agreed tcpMss offers ∧ 1 ≤ d.mss.toNat ∧ d.mss.toNat ≤ 536) := by
  intro c d
  have hsize : c.rxSize.toNat ≤ 16384 := rxSize_le_run core calls
  refine ⟨checkedInput_eq core c bytes now hbytes hsize, fun i hi ↦ ?_, ?_, ?_⟩
  · exact (tcpInput_endpoint core c (Memory.ofList bytes) bytes.length now).rx_above hsize hi
  · exact fun hstate ↦ tcpInput_of_no_answer core now hbytes hstate
  · exact fun offers ↦ tcpInput_of_synAck core now hbytes

/-- A connection whose SYN is on its way. -/
def connecting : List Call := [.start 1 2 100 none 0 0 (fun _ _ _ ↦ true) [], .event (.tick 0)]

/-- A SYN/ACK with the options no-operation, window scale, and a segment size of 300. -/
def synAckBytes : List UInt8 :=
  [0, 2, 0, 1, 0, 0, 1, 244, 0, 0, 0, 101, 0x70, 18, 16, 0, 0, 0, 0, 0, 1, 3, 3, 7, 2, 4, 1, 44]

theorem synAck_connecting : SynAck (run (perform steadyCore) (zeroed steadyCore) connecting) synAckBytes [300] where
  addressed := rfl
  answers := ⟨rfl, rfl, rfl, rfl, rfl⟩
  options := Options.nop (Options.other 3 3 [7] (by decide) rfl
    (Options.mss 1 44 (by decide) Options.nil))

theorem tcpInput_safe_connecting :
    (tcpInput steadyCore (run (perform steadyCore) (zeroed steadyCore) connecting)
        (Memory.ofList synAckBytes) synAckBytes.length 1000).state = .established ∧
      (tcpInput steadyCore (run (perform steadyCore) (zeroed steadyCore) connecting)
        (Memory.ofList synAckBytes) synAckBytes.length 1000).mss.toUInt32 = 300 := by
  obtain ⟨-, -, -, haccepted⟩ := tcpInput_safe steadyCore connecting synAckBytes 1000 (by decide)
  obtain ⟨hstate, hmss, -, -⟩ := haccepted [300] synAck_connecting
  exact ⟨hstate, hmss⟩

end JordyOS.Transport
