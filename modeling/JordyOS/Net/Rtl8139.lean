import JordyOS.Machine.Ring
import JordyOS.Machine.Words
import JordyOS.Policy.Adapter
import Mathlib.Logic.Relation

/-!
# The receive ring

`rtl_poll` of `rtl8139.c` and the card that fills its ring.  The card appends records to the ring and
says that the ring is empty when it is to write where the driver is to read; the driver takes the
frames out of the records and hands them to `net_receive`, which leaves this part of the state alone.
-/

namespace JordyOS.Net

open Machine Policy

/-! ## The driver -/

def rxSize : ℕ := 8192

/-- The registers of the card that the driver reads or writes, and the place the card writes to next. -/
structure Card where
  write : ℕ
  /-- The current address of packet read, at 0x38. -/
  capr : UInt16
  /-- The interrupt status, at 0x3e. -/
  interruptStatus : UInt16

/-- The bit of the command register: the card is to write where the driver is to read. -/
def Card.bufferEmpty (c : Card) : Bool := c.write == (c.capr.toNat + 16) % rxSize

/-- The static variables of the driver, its card, and the frames handed to `net_receive`. -/
structure Rtl where
  up : Bool
  rxOffset : UInt32
  rxRing : Memory
  frame : Memory
  driverErrors : UInt32
  card : Card
  received : List (List UInt8)

namespace Rtl

def driverError (r : Rtl) : Rtl := { r with driverErrors := r.driverErrors + 1 }

/-- `rtl_down` and `rtl_up`: the card is found and comes out of its reset, or the driver stays down. -/
def restart (answers : Bool) (r : Rtl) : Rtl :=
  if answers then { r with rxOffset := 0, card := ⟨0, 0xfff0, 0⟩, up := true } else { r with up := false }

/-- `rx_ring[(rx_offset + i) % RX_SIZE]`. -/
def ringByte (r : Rtl) (i : ℕ) : UInt8 := r.rxRing ((r.rxOffset + UInt32.ofNat i) % 8192).toNat

/-- The frame of `n` bytes is copied out of the ring and handed on. -/
def receive (r : Rtl) (n : UInt32) : Rtl :=
  let frame := (List.range n.toNat).foldl (fun frame i ↦ frame.set i (r.ringByte (4 + i))) r.frame
  { r with frame := frame, received := r.received ++ [frame.bytes n.toNat] }

/-- The end of a round of the loop. -/
inductive Round
  | next (r : Rtl)
  | break (r : Rtl)
  | return (r : Rtl)

def pollRound (answers : Bool) (r : Rtl) : Round :=
  let status : UInt16 := (r.rxRing r.rxOffset.toNat).toUInt16 ||| (r.ringByte 1).toUInt16 <<< 8
  let size : UInt32 := (r.ringByte 2).toUInt32 ||| (r.ringByte 3).toUInt32 <<< 8
  if size = 0xfff0 then .break r
  else if size < 4 ∨ size.toNat > netFrameMax + 4 then .return (r.driverError.restart answers)
  else
    let r := if status &&& 0x3f = 1 then r.receive (size - 4) else r.driverError
    let offset := ((r.rxOffset + size + 4 + 3) &&& ~~~3) % 8192
    .next { r with rxOffset := offset, card := { r.card with capr := (offset - 16).toUInt16 } }

/-- The loop with the budget that is left; `false` stands for its `return`. -/
def pollLoop (answers : Bool) : ℕ → Rtl → Rtl × Bool
  | 0, r => (r, true)
  | budget + 1, r =>
    if r.card.bufferEmpty then (r, true)
    else
      match pollRound answers r with
      | .next r => pollLoop answers budget r
      | .break r => (r, true)
      | .return r => (r, false)

/-- Bits of the interrupt status are cleared by writing ones to them. -/
def acknowledge (r : Rtl) (bits : UInt16) : Rtl :=
  { r with card := { r.card with interruptStatus := r.card.interruptStatus &&& ~~~bits } }

def poll (answers : Bool) (r : Rtl) : Rtl :=
  if r.up = false then r
  else if r.card.interruptStatus &&& 0x50 ≠ 0 then r.driverError.restart answers
  else
    match pollLoop answers 8 r with
    | (r, true) => r.acknowledge 0x0f
    | (r, false) => r

end Rtl

/-! ## The card -/

/-- The record of a frame: status, size, the frame and its checksum. -/
def record (status : UInt16) (bytes crc : List UInt8) : List UInt8 :=
  let size := UInt16.ofNat (bytes.length + 4)
  [status.toUInt8, (status >>> 8).toUInt8, size.toUInt8, (size >>> 8).toUInt8] ++ bytes ++ crc

/-- The bytes of the ring that a frame takes, with its padding. -/
def span (bytes : List UInt8) : ℕ := (bytes.length + 8 + 3) / 4 * 4

/-- The driver, and all frames the card has appended. -/
structure Link where
  rtl : Rtl
  appended : List (List UInt8)

namespace Link

/-- The bytes of the records the driver has not handed on. -/
def unread (l : Link) : ℕ := Ring.total span l.appended - Ring.total span l.rtl.received

def append (l : Link) (status : UInt16) (bytes crc : List UInt8) : Link where
  rtl :=
    { l.rtl with
      rxRing := Ring.put rxSize l.rtl.rxRing l.rtl.card.write (record status bytes crc)
      card :=
        { l.rtl.card with
          write := (l.rtl.card.write + (record status bytes crc).length + 3) / 4 * 4 % rxSize } }
  appended := l.appended ++ [bytes]

def raise (l : Link) (bits : UInt16) : Link :=
  { l with rtl :=
    { l.rtl with card :=
      { l.rtl.card with interruptStatus := l.rtl.card.interruptStatus ||| bits } } }

/-- After `rtl_up`. -/
structure Fresh (l : Link) : Prop where
  up : l.rtl.up = true
  rxOffset : l.rtl.rxOffset = 0
  write : l.rtl.card.write = 0
  capr : l.rtl.card.capr = 0xfff0
  interruptStatus : l.rtl.card.interruptStatus &&& 0x50 = 0
  received : l.rtl.received = []
  appended : l.appended = []

/-- A step of the card or the driver.  Up to `limit` bytes of the ring may be unread; neither overflow
nor a receive error is reported. -/
inductive Step (limit : ℕ) (l : Link) : Link → Prop
  | append (status : UInt16) (bytes crc : List UInt8) (hstatus : status &&& 0x3f = 1)
      (hbytes : bytes.length ≤ netFrameMax) (hcrc : crc.length = 4)
      (hroom : l.unread + span bytes ≤ limit) : Step limit l (l.append status bytes crc)
  | raise (bits : UInt16) (hbits : bits &&& 0x50 = 0) : Step limit l (l.raise bits)
  | poll (answers : Bool) : Step limit l { l with rtl := l.rtl.poll answers }

def Reachable (limit : ℕ) (l : Link) : Prop :=
  ∃ start : Link, start.Fresh ∧ Relation.ReflTransGen (Step limit) start l

/-- The frames handed to `net_receive` are those appended, each once and in order, and every further
poll hands on the next eight; the ring is reported empty when none is left. -/
structure Delivered (l : Link) : Prop where
  aligned : l.rtl.rxOffset.toNat % 4 = 0
  inside : l.rtl.rxOffset.toNat < rxSize
  inOrder : l.rtl.received <+: l.appended
  polls : ∀ answers k, ((Rtl.poll answers)^[k] l.rtl).received =
    l.appended.take (l.rtl.received.length + 8 * k)
  empty : l.rtl.card.bufferEmpty = true ↔ l.rtl.received = l.appended

end Link

/-! ## Records -/

/-- The bytes hold the frame as the card writes it. -/
def IsRecord (bytes frame : List UInt8) : Prop :=
  frame.length ≤ netFrameMax ∧ ∃ status crc, status &&& 0x3f = (1 : UInt16) ∧ crc.length = 4 ∧
    bytes = record status frame crc

theorem length_record (status : UInt16) (frame : List UInt8) {crc : List UInt8} (hcrc : crc.length = 4) :
    (record status frame crc).length = frame.length + 8 := by
  simp only [record, List.length_append, List.length_cons, List.length_nil, hcrc]
  omega

theorem length_le_span (bytes frame : List UInt8) (h : IsRecord bytes frame) :
    bytes.length ≤ span frame := by
  obtain ⟨-, status, crc, -, hcrc, rfl⟩ := h
  rw [length_record status frame hcrc]
  unfold span
  omega

theorem four_dvd_span (frame : List UInt8) : 4 ∣ span frame := Nat.dvd_mul_left 4 _

theorem four_dvd_total (l : List (List UInt8)) : 4 ∣ Ring.total span l := by
  induction l with
  | nil => exact Nat.dvd_zero 4
  | cons frame l ih =>
    rw [Ring.total_cons]
    exact Nat.dvd_add (four_dvd_span frame) ih

theorem total_eq_zero {l : List (List UInt8)} (h : Ring.total span l = 0) : l = [] := by
  cases l with
  | nil => rfl
  | cons frame l =>
    rw [Ring.total_cons, span] at h
    omega

/-- Two bytes, the low one first. -/
theorem or_bytes {n : ℕ} (hn : n < 2 ^ 16) : n % 256 ||| n / 256 % 256 * 2 ^ 8 = n := by
  have hhigh : n / 256 % 256 = n / 256 := Nat.mod_eq_of_lt (by omega)
  have hlow : n % 256 < 2 ^ 8 := Nat.mod_lt n (by decide)
  rw [hhigh, Nat.or_comm, Nat.mul_comm, ← Nat.two_pow_add_eq_or_of_lt hlow]
  exact Nat.div_add_mod n 256

theorem status_bytes (n : UInt16) :
    (n.toUInt8).toUInt16 ||| ((n >>> 8).toUInt8).toUInt16 <<< 8 = n := by
  have height : (8 : UInt16).toNat % 16 = 8 := rfl
  have hlt := n.toNat_lt
  apply UInt16.toNat_inj.mp
  simp only [UInt16.toNat_or, UInt16.toNat_shiftLeft, UInt8.toNat_toUInt16, UInt16.toNat_toUInt8,
    UInt16.toNat_shiftRight, height, Nat.shiftRight_eq_div_pow, Nat.shiftLeft_eq]
  rw [Nat.mod_eq_of_lt (show n.toNat / 2 ^ 8 % 2 ^ 8 * 2 ^ 8 < 2 ^ 16 by omega)]
  exact or_bytes hlt

theorem size_bytes (n : UInt16) :
    ((n.toUInt8).toUInt32 ||| ((n >>> 8).toUInt8).toUInt32 <<< 8).toNat = n.toNat := by
  have height : (8 : UInt16).toNat % 16 = 8 := rfl
  have height' : (8 : UInt32).toNat % 32 = 8 := rfl
  have hlt := n.toNat_lt
  simp only [UInt32.toNat_or, UInt32.toNat_shiftLeft, UInt8.toNat_toUInt32, UInt16.toNat_toUInt8,
    UInt16.toNat_shiftRight, height, height', Nat.shiftRight_eq_div_pow, Nat.shiftLeft_eq]
  rw [Nat.mod_eq_of_lt (show n.toNat / 2 ^ 8 % 2 ^ 8 * 2 ^ 8 < 2 ^ 32 by omega)]
  exact or_bytes hlt

/-! ## What the driver knows -/

/-- The frames still in the ring, in the state between two calls. -/
structure Rtl.Holds (r : Rtl) (pending : List (List UInt8)) : Prop where
  up : r.up = true
  status : r.card.interruptStatus &&& 0x50 = 0
  aligned : 4 ∣ r.rxOffset.toNat
  inside : r.rxOffset.toNat < rxSize
  capr : (r.card.capr.toNat + 16) % rxSize = r.rxOffset.toNat
  write : r.card.write = (r.rxOffset.toNat + Ring.total span pending) % rxSize
  room : Ring.total span pending < rxSize
  queued : Ring.Queued span IsRecord rxSize r.rxRing r.rxOffset.toNat pending

namespace Rtl.Holds

variable {r : Rtl} {pending : List (List UInt8)} {frame : List UInt8}

theorem bufferEmpty_iff (h : r.Holds pending) : r.card.bufferEmpty = true ↔ pending = [] := by
  have hsize : rxSize = 8192 := rfl
  have hinside := h.inside
  have hroom := h.room
  rw [Card.bufferEmpty, beq_iff_eq, h.capr, h.write]
  constructor
  · intro hsame
    rw [hsize] at hsame hinside hroom
    exact total_eq_zero (by omega)
  · rintro rfl
    rw [Ring.total_nil, Nat.add_zero, Nat.mod_eq_of_lt hinside]

theorem toNat_ringByte (h : r.Holds pending) {i : ℕ} (hi : i < rxSize) :
    r.ringByte i = r.rxRing ((r.rxOffset.toNat + i) % rxSize) := by
  have hsize : rxSize = 8192 := rfl
  have hring : (8192 : UInt32).toNat = 8192 := rfl
  have hinside := h.inside
  have hplace : ((r.rxOffset + UInt32.ofNat i) % 8192).toNat = (r.rxOffset.toNat + i) % rxSize := by
    have hlt : i < 2 ^ 32 := by omega
    rw [UInt32.toNat_mod, UInt32.toNat_add, UInt32.toNat_ofNat_of_lt' hlt, hring, hsize]
    omega
  rw [ringByte, hplace]

/-- The bytes the driver finds are those of the record. -/
theorem ringByte_record (h : r.Holds (frame :: pending)) :
    ∃ status crc, status &&& 0x3f = (1 : UInt16) ∧ crc.length = 4 ∧
      r.rxRing r.rxOffset.toNat = (record status frame crc).getD 0 0 ∧
      ∀ i < frame.length + 8, r.ringByte i = (record status frame crc).getD i 0 := by
  obtain ⟨⟨bytes, ⟨hlength, status, crc, hstatus, hcrc, rfl⟩, hstored⟩, -⟩ := h.queued
  have hmax : netFrameMax = 1514 := rfl
  have hsize : rxSize = 8192 := rfl
  unfold Ring.Stored at hstored
  rw [length_record status frame hcrc] at hstored
  have hfirst := hstored 0 (by omega)
  rw [Nat.add_zero, Nat.mod_eq_of_lt h.inside] at hfirst
  refine ⟨status, crc, hstatus, hcrc, hfirst, fun i hi ↦ ?_⟩
  rw [h.toNat_ringByte (by omega)]
  exact hstored i hi

end Rtl.Holds

/-- The frame that is handed on is the one in the record. -/
theorem receive_received {r : Rtl} {frame : List UInt8} {pending : List (List UInt8)}
    (h : r.Holds (frame :: pending)) {n : UInt32} (hn : n.toNat = frame.length) :
    (r.receive n).received = r.received ++ [frame] := by
  obtain ⟨status, crc, -, -, -, hbytes⟩ := h.ringByte_record
  unfold Rtl.receive Memory.bytes
  dsimp only
  congr 2
  refine List.ext_getElem (by rw [List.length_map, List.length_range, hn]) fun i hi hi' ↦ ?_
  have hplace (frame : Memory) (byte : ℕ → UInt8) :
      (List.range n.toNat).foldl (fun frame k ↦ frame.set k (byte k)) frame i =
        if i < n.toNat then byte i else frame i := by
    simpa only [Nat.zero_add, Nat.zero_le, true_and, Nat.sub_zero] using
      Memory.foldl_set_apply byte frame 0 n.toNat i
  rw [List.getElem_map, List.getElem_range, hplace, if_pos (hn ▸ hi'), hbytes _ (by omega)]
  have hrecord : (record status frame crc).getD (4 + i) 0 = (frame ++ crc).getD i 0 := by
    unfold record
    rw [List.append_assoc, List.getD_append_right _ _ _ _ (by simp)]
    simp
  rw [hrecord, List.getD_append _ _ _ _ hi', List.getD_eq_getElem _ _ hi']

/-- The address of the next record. -/
theorem toNat_nextOffset {offset size : UInt32} (haligned : 4 ∣ offset.toNat) (hinside : offset.toNat < rxSize)
    {n : ℕ} (hn : n ≤ netFrameMax) (hsize : size.toNat = n + 4) :
    (((offset + size + 4 + 3) &&& ~~~3) % 8192).toNat = (offset.toNat + (n + 8 + 3) / 4 * 4) % rxSize := by
  have hring : rxSize = 8192 := rfl
  have hmax : netFrameMax = 1514 := rfl
  have hmask : (~~~3 : UInt32).toNat = 2 ^ 2 * (2 ^ 30 - 1) := rfl
  have hmodulus : (8192 : UInt32).toNat = 8192 := rfl
  have hfour : (4 : UInt32).toNat = 4 := rfl
  have hthree : (3 : UInt32).toNat = 3 := rfl
  have hsum : (offset + size + 4 + 3).toNat = offset.toNat + n + 11 := by
    rw [UInt32.toNat_add, UInt32.toNat_add, UInt32.toNat_add, hsize, hfour, hthree]
    omega
  rw [UInt32.toNat_mod, UInt32.toNat_and, hmask, and_highBits (offset + size + 4 + 3).toNat_lt, hsum,
    hmodulus, hring]
  omega

/-- The register holds the address less 16. -/
theorem capr_nextOffset {offset : UInt32} (h : offset.toNat < rxSize) :
    ((offset - 16).toUInt16.toNat + 16) % rxSize = offset.toNat := by
  have hring : rxSize = 8192 := rfl
  have hsixteen : (16 : UInt32).toNat = 16 := rfl
  rw [UInt32.toNat_toUInt16, UInt32.toNat_sub, hsixteen, hring]
  omega

/-- A round of the loop hands on the first frame in the ring. -/
theorem pollRound_holds {r : Rtl} {frame : List UInt8} {pending : List (List UInt8)}
    (h : r.Holds (frame :: pending)) (answers : Bool) :
    ∃ s, r.pollRound answers = .next s ∧ s.Holds pending ∧ s.received = r.received ++ [frame] := by
  have hmax : netFrameMax = 1514 := rfl
  have hring : rxSize = 8192 := rfl
  obtain ⟨⟨bytes, ⟨hlength, -⟩, -⟩, hrest⟩ := h.queued
  obtain ⟨status, crc, hstatus, hcrc, hfirst, hbytes⟩ := h.ringByte_record
  have hword : (r.rxRing r.rxOffset.toNat).toUInt16 ||| (r.ringByte 1).toUInt16 <<< 8 = status := by
    rw [hfirst, hbytes 1 (by omega)]
    exact status_bytes status
  have hsize : ((r.ringByte 2).toUInt32 ||| (r.ringByte 3).toUInt32 <<< 8).toNat = frame.length + 4 := by
    rw [hbytes 2 (by omega), hbytes 3 (by omega)]
    refine (size_bytes (UInt16.ofNat (frame.length + 4))).trans ?_
    rw [UInt16.toNat_ofNat_of_lt' (by change _ < 2 ^ 16; omega)]
  unfold Rtl.pollRound
  rw [hword]
  revert hsize
  generalize (r.ringByte 2).toUInt32 ||| (r.ringByte 3).toUInt32 <<< 8 = size
  intro hsize
  have hprogress : size ≠ 0xfff0 := fun hsame ↦ by
    rw [hsame] at hsize
    have hvalue : (0xfff0 : UInt32).toNat = 0xfff0 := rfl
    omega
  have hlow : ¬ (size < 4 ∨ size.toNat > netFrameMax + 4) := by
    rw [UInt32.lt_iff_toNat_lt, hsize]
    have hfour : (4 : UInt32).toNat = 4 := rfl
    omega
  have hcount : (size - 4).toNat = frame.length := by
    have hfour : (4 : UInt32).toNat = 4 := rfl
    rw [UInt32.toNat_sub_of_le _ _ (UInt32.le_iff_toNat_le.mpr (by omega)), hsize, hfour]
    omega
  have hnext := toNat_nextOffset h.aligned h.inside hlength hsize
  have hroom := h.room
  rw [Ring.total_cons] at hroom
  simp only [hprogress, hlow, hstatus, if_false, if_true]
  refine ⟨_, rfl, ?_, receive_received h hcount⟩
  have hspan : (frame.length + 8 + 3) / 4 * 4 = span frame := rfl
  rw [hspan] at hnext
  have hinside : (((r.rxOffset + size + 4 + 3) &&& ~~~3) % 8192).toNat < rxSize := by
    rw [hnext]
    exact Nat.mod_lt _ (by decide)
  refine ⟨h.up, h.status, ?_, hinside, capr_nextOffset hinside, ?_, by omega, ?_⟩
  · change 4 ∣ (((r.rxOffset + size + 4 + 3) &&& ~~~3) % 8192).toNat
    rw [hnext]
    exact (Nat.dvd_mod_iff (by decide)).mpr (Nat.dvd_add h.aligned (four_dvd_span frame))
  · change r.card.write = ((((r.rxOffset + size + 4 + 3) &&& ~~~3) % 8192).toNat + _) % rxSize
    rw [hnext, Nat.mod_add_mod, h.write, Ring.total_cons, Nat.add_assoc]
  · change Ring.Queued span IsRecord rxSize r.rxRing
      (((r.rxOffset + size + 4 + 3) &&& ~~~3) % 8192).toNat pending
    rw [hnext]
    exact (Ring.queued_congr (Nat.mod_mod _ _)).mpr hrest

/-- The loop hands on as many frames as its budget allows. -/
theorem pollLoop_holds (answers : Bool) (budget : ℕ) {r : Rtl} {pending : List (List UInt8)}
    (h : r.Holds pending) :
    ∃ s, r.pollLoop answers budget = (s, true) ∧ s.Holds (pending.drop budget) ∧
      s.received = r.received ++ pending.take budget := by
  induction budget generalizing r pending with
  | zero => exact ⟨r, rfl, h, (List.append_nil _).symm⟩
  | succ budget ih =>
    unfold Rtl.pollLoop
    cases pending with
    | nil =>
      rw [if_pos (h.bufferEmpty_iff.mpr rfl)]
      exact ⟨r, rfl, h, (List.append_nil _).symm⟩
    | cons frame pending =>
      obtain ⟨s, hround, hs, hreceived⟩ := pollRound_holds h answers
      obtain ⟨t, hloop, ht, hreceived'⟩ := ih hs
      rw [if_neg fun hempty ↦ List.cons_ne_nil _ _ (h.bufferEmpty_iff.mp hempty), hround]
      refine ⟨t, hloop, ht, ?_⟩
      rw [hreceived', hreceived, List.append_assoc]
      rfl

theorem acknowledge_status {r : Rtl} (h : r.card.interruptStatus &&& 0x50 = 0) (bits : UInt16) :
    (r.acknowledge bits).card.interruptStatus &&& 0x50 = 0 := by
  change r.card.interruptStatus &&& ~~~bits &&& 0x50 = 0
  rw [UInt16.and_assoc, UInt16.and_comm (~~~bits), ← UInt16.and_assoc, h, UInt16.zero_and]

/-- A call hands on the first eight frames in the ring. -/
theorem poll_holds (answers : Bool) {r : Rtl} {pending : List (List UInt8)} (h : r.Holds pending) :
    (r.poll answers).Holds (pending.drop 8) ∧
      (r.poll answers).received = r.received ++ pending.take 8 := by
  obtain ⟨s, hloop, hs, hreceived⟩ := pollLoop_holds answers 8 h
  have hpoll : r.poll answers = s.acknowledge 0x0f := by
    unfold Rtl.poll
    rw [if_neg (by rw [h.up]; decide), if_neg (not_not.mpr h.status), hloop]
  rw [hpoll]
  exact ⟨⟨hs.up, acknowledge_status hs.status _, hs.aligned, hs.inside, hs.capr, hs.write, hs.room,
    hs.queued⟩, hreceived⟩

/-! ## Runs of card and driver -/

namespace Link

variable {l : Link}

theorem or_and_eq_zero {a b mask : UInt16} (ha : a &&& mask = 0) (hb : b &&& mask = 0) :
    (a ||| b) &&& mask = 0 := by
  apply UInt16.toNat_inj.mp
  rw [UInt16.toNat_and, UInt16.toNat_or, Nat.and_or_distrib_right, ← UInt16.toNat_and,
    ← UInt16.toNat_and, ha, hb]
  rfl

/-- Every appended frame was handed on or is still in the ring. -/
def Sound (l : Link) : Prop :=
  ∃ pending, l.rtl.Holds pending ∧ l.appended = l.rtl.received ++ pending

theorem unread_eq {pending : List (List UInt8)} (h : l.appended = l.rtl.received ++ pending) :
    l.unread = Ring.total span pending := by
  rw [unread, h, Ring.total_append, Nat.add_sub_cancel_left]

theorem Fresh.sound (h : l.Fresh) : l.Sound := by
  refine ⟨[], ⟨h.up, h.interruptStatus, ?_, ?_, ?_, ?_, by decide, trivial⟩, ?_⟩
  · rw [h.rxOffset]
    decide
  · rw [h.rxOffset]
    decide
  · rw [h.rxOffset, h.capr]
    decide
  · rw [h.rxOffset, h.write]
    rfl
  · rw [h.appended, h.received]
    rfl

theorem append_write (l : Link) (status : UInt16) (bytes : List UInt8) {crc : List UInt8}
    (hcrc : crc.length = 4) (haligned : 4 ∣ l.rtl.card.write) :
    (l.append status bytes crc).rtl.card.write = (l.rtl.card.write + span bytes) % rxSize := by
  change (l.rtl.card.write + (record status bytes crc).length + 3) / 4 * 4 % rxSize = _
  have hround : (l.rtl.card.write + (record status bytes crc).length + 3) / 4 * 4 =
      l.rtl.card.write + span bytes := by
    rw [length_record status bytes hcrc]
    unfold span
    omega
  rw [hround]

/-- The card appends to what the ring holds. -/
theorem Sound.append (h : l.Sound) {status : UInt16} {bytes crc : List UInt8}
    (hstatus : status &&& 0x3f = 1) (hbytes : bytes.length ≤ netFrameMax) (hcrc : crc.length = 4)
    (hroom : l.unread + span bytes < rxSize) : (l.append status bytes crc).Sound := by
  obtain ⟨pending, h, happended⟩ := h
  rw [unread_eq happended] at hroom
  have htotal : Ring.total span (pending ++ [bytes]) = Ring.total span pending + span bytes := by
    rw [Ring.total_append, Ring.total_cons, Ring.total_nil, Nat.add_zero]
  have haligned : 4 ∣ l.rtl.card.write := by
    rw [h.write]
    exact (Nat.dvd_mod_iff (by decide)).mpr (Nat.dvd_add h.aligned (four_dvd_total pending))
  refine ⟨pending ++ [bytes], ⟨h.up, h.status, h.aligned, h.inside, h.capr, ?_, ?_, ?_⟩, ?_⟩
  · rw [append_write l status bytes hcrc haligned, h.write, Nat.mod_add_mod, htotal, Nat.add_assoc]
    rfl
  · rw [htotal]
    exact hroom
  · change Ring.Queued span IsRecord rxSize
      (Ring.put rxSize l.rtl.rxRing l.rtl.card.write (record status bytes crc)) _ _
    rw [h.write, Ring.put_mod]
    exact h.queued.concat length_le_span ⟨hbytes, status, crc, hstatus, hcrc, rfl⟩ (by decide) hroom.le
  · change l.appended ++ [bytes] = l.rtl.received ++ (pending ++ [bytes])
    rw [happended, List.append_assoc]

theorem Sound.step (h : l.Sound) {m : Link} (hstep : Step (rxSize - 1) l m) : m.Sound := by
  cases hstep with
  | append status bytes crc hstatus hbytes hcrc hroom =>
    exact h.append hstatus hbytes hcrc (Nat.lt_of_le_pred (by decide) hroom)
  | raise bits hbits =>
    obtain ⟨pending, h, happended⟩ := h
    refine ⟨pending, ⟨h.up, ?_, h.aligned, h.inside, h.capr, h.write, h.room, h.queued⟩, happended⟩
    change (l.rtl.card.interruptStatus ||| bits) &&& 0x50 = 0
    exact or_and_eq_zero h.status hbits
  | poll answers =>
    obtain ⟨pending, h, happended⟩ := h
    obtain ⟨hholds, hreceived⟩ := poll_holds answers h
    refine ⟨pending.drop 8, hholds, ?_⟩
    rw [hreceived, List.append_assoc, List.take_append_drop]
    exact happended

theorem Reachable.sound (h : Reachable (rxSize - 1) l) : l.Sound := by
  obtain ⟨start, hfresh, hsteps⟩ := h
  induction hsteps with
  | refl => exact hfresh.sound
  | tail _ hstep ih => exact ih.step hstep

/-- Calls one after the other hand on eight frames each. -/
theorem polls_received (answers : Bool) (k : ℕ) {r : Rtl} {pending : List (List UInt8)}
    (h : r.Holds pending) :
    ((Rtl.poll answers)^[k] r).received = r.received ++ pending.take (8 * k) := by
  induction k generalizing r pending with
  | zero => exact (List.append_nil _).symm
  | succ k ih =>
    obtain ⟨hholds, hreceived⟩ := poll_holds answers h
    rw [Function.iterate_succ_apply, ih hholds, hreceived, List.append_assoc, Nat.mul_succ,
      Nat.add_comm, List.take_add]

theorem Sound.delivered (h : l.Sound) : l.Delivered := by
  obtain ⟨pending, h, happended⟩ := h
  refine ⟨Nat.mod_eq_zero_of_dvd h.aligned, h.inside, ⟨pending, happended.symm⟩, fun answers k ↦ ?_, ?_⟩
  · rw [polls_received answers k h, happended, List.take_length_add_append]
  · rw [h.bufferEmpty_iff, happended, List.self_eq_append_right]

/-- A driver that has just come up. -/
def idle : Link := ⟨⟨true, 0, Memory.zero, Memory.zero, 0, ⟨0, 0xfff0, 0⟩, []⟩, []⟩

/-- The frames were appended before the first call. -/
def filled (frames : List (List UInt8)) : Link := frames.foldl (fun l bytes ↦ l.append 1 bytes [0, 0, 0, 0]) idle

theorem filled_reachable {limit : ℕ} {frames : List (List UInt8)}
    (hframes : ∀ bytes ∈ frames, bytes.length ≤ netFrameMax) (hroom : Ring.total span frames ≤ limit) :
    Reachable limit (filled frames) ∧ (filled frames).appended = frames ∧
      (filled frames).rtl.received = [] ∧ (filled frames).rtl.up = true ∧
      (filled frames).rtl.card.interruptStatus = 0 ∧ (filled frames).rtl.card.capr = 0xfff0 ∧
      (filled frames).rtl.card.write = Ring.total span frames % rxSize := by
  induction frames using List.reverseRecOn with
  | nil => exact ⟨⟨idle, ⟨rfl, rfl, rfl, rfl, rfl, rfl, rfl⟩, .refl⟩, rfl, rfl, rfl, rfl, rfl, rfl⟩
  | append_singleton frames bytes ih =>
    rw [Ring.total_append, Ring.total_cons, Ring.total_nil, Nat.add_zero] at hroom ⊢
    obtain ⟨⟨start, hfresh, hsteps⟩, happended, hreceived, hup, hstatus, hcapr, hwrite⟩ :=
      ih (fun b hb ↦ hframes b (List.mem_append_left _ hb)) (Nat.le_of_add_right_le hroom)
    have hlast : filled (frames ++ [bytes]) = (filled frames).append 1 bytes [0, 0, 0, 0] := by
      rw [filled, List.foldl_append]
      rfl
    have hunread : (filled frames).unread = Ring.total span frames :=
      unread_eq (by rw [happended, hreceived, List.nil_append])
    have haligned : 4 ∣ (filled frames).rtl.card.write := by
      rw [hwrite]
      exact (Nat.dvd_mod_iff (by decide)).mpr (four_dvd_total frames)
    rw [hlast]
    refine ⟨⟨start, hfresh, hsteps.tail (.append 1 bytes [0, 0, 0, 0] rfl ?_ rfl ?_)⟩, ?_, hreceived, hup,
      hstatus, hcapr, ?_⟩
    · exact hframes bytes (List.mem_append_right _ (List.mem_singleton_self bytes))
    · rw [hunread]
      exact hroom
    · change (filled frames).appended ++ [bytes] = _
      rw [happended]
    · rw [append_write _ 1 bytes rfl haligned, hwrite, Nat.mod_add_mod]

/-- As long as the card leaves a byte of the ring free, the driver hands on exactly the frames that were
appended. -/
theorem reachable_delivered (l : Link) (h : Reachable (rxSize - 1) l) : l.Delivered :=
  h.sound.delivered

/-- A call that empties the ring. -/
theorem Reachable.poll (h : Reachable (rxSize - 1) l) (answers : Bool) (hreceived : l.rtl.received = [])
    (hfew : l.appended.length ≤ 8) :
    Reachable (rxSize - 1) { l with rtl := l.rtl.poll answers } ∧ (l.rtl.poll answers).received = l.appended := by
  obtain ⟨pending, hholds, hpending⟩ := h.sound
  obtain ⟨start, hfresh, hsteps⟩ := h
  obtain rfl : pending = l.appended := by rw [hpending, hreceived, List.nil_append]
  refine ⟨⟨start, hfresh, hsteps.tail (.poll answers)⟩, ?_⟩
  rw [(poll_holds answers hholds).2, hreceived, List.nil_append, List.take_of_length_le hfew]

/-- A frame is appended to those that are pending. -/
theorem Reachable.append {limit : ℕ} (h : Reachable limit l) (pending : List (List UInt8)) (bytes : List UInt8)
    (hpending : l.appended = l.rtl.received ++ pending) (hbytes : bytes.length ≤ netFrameMax)
    (hroom : Ring.total span pending + span bytes ≤ limit) :
    Reachable limit (l.append 1 bytes [0, 0, 0, 0]) ∧
      (l.append 1 bytes [0, 0, 0, 0]).appended = l.rtl.received ++ (pending ++ [bytes]) := by
  obtain ⟨start, hfresh, hsteps⟩ := h
  refine ⟨⟨start, hfresh, hsteps.tail (.append 1 bytes [0, 0, 0, 0] rfl hbytes rfl ?_)⟩, ?_⟩
  · rw [unread_eq hpending]
    exact hroom
  · change l.appended ++ [bytes] = _
    rw [hpending, List.append_assoc]

def fiveFrames : List (List UInt8) := List.replicate 5 (List.replicate 1514 7)

def longFrame : List UInt8 := List.replicate 600 9

/-- Five frames were handed on; of the two behind them the first one goes over the end of the ring. -/
def wrapped : Link :=
  (({ filled fiveFrames with rtl := (filled fiveFrames).rtl.poll true } : Link).append 1 longFrame
    [0, 0, 0, 0]).append 1 [1, 2, 3] [0, 0, 0, 0]

theorem wrapped_reachable : Reachable (rxSize - 1) wrapped ∧ wrapped.rtl.received = fiveFrames ∧
    wrapped.appended = fiveFrames ++ [longFrame, [1, 2, 3]] := by
  have hspan (n : ℕ) (byte : UInt8) : span (List.replicate n byte) = (n + 11) / 4 * 4 := by
    rw [span, List.length_replicate]
  have htotal : Ring.total span fiveFrames = 7620 := by
    rw [Ring.total, fiveFrames, List.map_replicate, List.sum_replicate, hspan]
    rfl
  have hlengths : ∀ bytes ∈ fiveFrames, bytes.length ≤ netFrameMax := by
    intro bytes hbytes
    rw [(List.mem_replicate.mp hbytes).2, List.length_replicate]
    rfl
  have hlong : span longFrame = 608 := hspan 600 9
  have hlength : longFrame.length ≤ netFrameMax := by
    rw [longFrame, List.length_replicate]
    decide
  have hring : rxSize - 1 = 8191 := rfl
  have hfive : fiveFrames.length ≤ 8 := by decide
  obtain ⟨hfilled, happended, hreceived, -⟩ :=
    filled_reachable hlengths (by omega : Ring.total span fiveFrames ≤ rxSize - 1)
  unfold wrapped
  generalize filled fiveFrames = l at hfilled happended hreceived ⊢
  generalize longFrame = frame at hlong hlength ⊢
  obtain ⟨hpolled, hall⟩ := hfilled.poll true hreceived (happended ▸ hfive)
  obtain ⟨hfirst, hone⟩ := hpolled.append [] frame (by rw [List.append_nil]; exact hall.symm) hlength (by
    rw [Ring.total_nil, hlong]
    decide)
  obtain ⟨hsecond, htwo⟩ := hfirst.append ([] ++ [frame]) [1, 2, 3] hone (by decide) (by
    rw [List.nil_append, Ring.total_cons, Ring.total_nil, hlong]
    decide)
  refine ⟨hsecond, hall.trans happended, htwo.trans ?_⟩
  rw [← happended, ← hall]
  rfl

theorem reachable_delivered_wrapped : wrapped.Delivered ∧ wrapped.rtl.received = fiveFrames ∧
    wrapped.appended = fiveFrames ++ [longFrame, [1, 2, 3]] :=
  ⟨reachable_delivered wrapped wrapped_reachable.1, wrapped_reachable.2⟩

/-! ## A full ring -/

/-- The ring is reported empty, whatever it holds. -/
structure Stuck (r : Rtl) : Prop where
  up : r.up = true
  status : r.card.interruptStatus &&& 0x50 = 0
  empty : r.card.bufferEmpty = true

theorem Stuck.poll {r : Rtl} (h : Stuck r) (answers : Bool) :
    Stuck (r.poll answers) ∧ (r.poll answers).received = r.received := by
  have hloop : r.pollLoop answers 8 = (r, true) := by
    unfold Rtl.pollLoop
    rw [if_pos h.empty]
  have hpoll : r.poll answers = r.acknowledge 0x0f := by
    unfold Rtl.poll
    rw [if_neg (by rw [h.up]; decide), if_neg (not_not.mpr h.status), hloop]
  rw [hpoll]
  exact ⟨⟨h.up, acknowledge_status h.status _, h.empty⟩, rfl⟩

theorem Stuck.polls {r : Rtl} (h : Stuck r) (answers : Bool) (k : ℕ) :
    ((Rtl.poll answers)^[k] r).received = r.received := by
  induction k generalizing r with
  | zero => rfl
  | succ k ih =>
    obtain ⟨hstuck, hreceived⟩ := h.poll answers
    rw [Function.iterate_succ_apply, ih hstuck, hreceived]

/-- Six frames that take the whole ring. -/
def sixFrames : List (List UInt8) := List.replicate 5 (List.replicate 1514 0) ++ [List.replicate 564 0]

theorem total_sixFrames : Ring.total span sixFrames = rxSize := by
  have hspan : ∀ n, span (List.replicate n 0) = (n + 8 + 3) / 4 * 4 := fun n ↦ by
    rw [span, List.length_replicate]
  rw [sixFrames, Ring.total_append, Ring.total_cons, Ring.total_nil, Ring.total, List.map_replicate,
    List.sum_replicate, hspan, hspan]
  rfl

/-- A card that fills the ring to the last byte overwrites nothing, but its ring is reported empty, and
the driver never hands on the frames. -/
theorem full_ring_stuck : ∃ l, Reachable rxSize l ∧ l.appended = sixFrames ∧
    l.rtl.card.bufferEmpty = true ∧
    ∀ answers k, ((Rtl.poll answers)^[k] l.rtl).received ≠ l.appended := by
  have hmax : netFrameMax = 1514 := rfl
  have hlengths : ∀ bytes ∈ sixFrames, bytes.length ≤ netFrameMax := by
    intro bytes hbytes
    rw [sixFrames, List.mem_append, List.mem_replicate, List.mem_singleton] at hbytes
    rcases hbytes with ⟨-, rfl⟩ | rfl
    · rw [List.length_replicate, hmax]
    · rw [List.length_replicate, hmax]
      decide
  obtain ⟨hreachable, happended, hreceived, hup, hstatus, hcapr, hwrite⟩ :=
    filled_reachable hlengths total_sixFrames.le
  have hempty : (filled sixFrames).rtl.card.bufferEmpty = true := by
    rw [Card.bufferEmpty, hwrite, hcapr, total_sixFrames]
    rfl
  have hstuck : Stuck (filled sixFrames).rtl := ⟨hup, by rw [hstatus]; rfl, hempty⟩
  refine ⟨filled sixFrames, hreachable, happended, hempty, fun answers k ↦ ?_⟩
  rw [hstuck.polls, hreceived, happended]
  exact (List.cons_ne_nil _ _).symm

end Link

end JordyOS.Net
