import JordyOS.Isolation.Loading
import JordyOS.Machine.Words

/-!
# The pages that no file fills

The marker, the startup page and the stack of a prepared process, whatever was in the slot before.
-/

namespace JordyOS.Isolation

open Machine Paging

variable {place : Placement} {image : Image} {slot : ℕ} {mode : UInt32} {command : Option Memory} {old : Process}

/-! ## Words -/

/-- A byte of a word. -/
theorem toUInt8_shiftRight (value : UInt64) {k : ℕ} (hk : k < 8) :
    (value >>> UInt64.ofNat (8 * k)).toUInt8 = UInt8.ofNat (value.toNat / 256 ^ k) := by
  have hplace : (UInt64.ofNat (8 * k)).toNat % 64 = 8 * k := by
    rw [UInt64.toNat_ofNat_of_lt' (by change 8 * k < 2 ^ 64; omega)]
    omega
  have hpow : (2 : ℕ) ^ (8 * k) = 256 ^ k := by rw [pow_mul]; norm_num
  refine UInt8.toNat_inj.mp ?_
  rw [UInt64.toNat_toUInt8, UInt64.toNat_shiftRight, hplace, Nat.shiftRight_eq_div_pow, hpow, UInt8.toNat_ofNat']

theorem write64_eq (m : Memory) (offset : ℕ) (value : UInt64) :
    write64 m offset value = m.writeWord offset 8 value.toNat := by
  funext i
  unfold write64 Memory.writeWord
  rw [Memory.foldl_set_apply fun k ↦ (value >>> UInt64.ofNat (8 * k)).toUInt8]
  by_cases hi : offset ≤ i ∧ i < offset + 8
  · rw [if_pos hi, if_pos hi, toUInt8_shiftRight value (by omega)]
  · rw [if_neg hi, if_neg hi]

/-! ## The startup page -/

/-- The text of the command that fits, and zeros behind it. -/
def commandByte (command : Option Memory) (i : ℕ) : UInt8 :=
  command.elim 0 fun text ↦ if i < (text.terminator 95).getD 95 then text i else 0

/-- What `strncpy` leaves in a buffer that was clear. -/
theorem strncpy_byte (m text : Memory) (offset i : ℕ) (hclear : ∀ k, offset ≤ k → m k = 0) :
    m.strncpy offset text 95 (offset + i) = if i < (text.terminator 95).getD 95 then text i else 0 := by
  unfold Memory.strncpy
  generalize (text.terminator 95).getD 95 = length
  by_cases hi : i < length
  · rw [if_pos hi, Memory.copy_below _ _ (by omega), Memory.copy_inside _ _ hi]
  · rw [if_neg hi]
    unfold Memory.copy
    split_ifs
    · rfl
    · omega
    · exact hclear _ (by omega)

theorem strncpy_below (m text : Memory) {offset i : ℕ} (size : ℕ) (hi : i < offset) :
    m.strncpy offset text size i = m i := by
  unfold Memory.strncpy
  rw [Memory.copy_below _ _ (by omega), Memory.copy_below _ _ hi]

/-- The address of the marker of the other slot, for the modes that learn it. -/
def peerAddress (place : Placement) (slot : ℕ) (mode : UInt32) : ℕ :=
  if mode = umodePeerRead ∨ mode = umodePeerWrite then place.memory (slot ^^^ 1) + userImageLimit - page else 0

/-- The four fields of `UserStartup`, with zeros behind them. -/
structure Startup (place : Placement) (slot : ℕ) (mode : UInt32) (command : Option Memory) (startup : Memory) :
    Prop where
  mode_eq : startup.readWord 0 8 = mode.toNat
  peer_address : startup.readWord 8 8 = peerAddress place slot mode
  marker_address : startup.readWord 16 8 = marker
  command_eq : ∀ i, startup (24 + i) = commandByte command i

theorem readWord_write64 (m : Memory) (offset : ℕ) (value : UInt64) :
    (write64 m offset value).readWord offset 8 = value.toNat := by
  have hlt : value.toNat < 256 ^ 8 := value.toNat_lt.trans_eq (by norm_num)
  rw [write64_eq, Memory.readWord_writeWord, Nat.mod_eq_of_lt hlt]

theorem readWord_write64_of_apart (m : Memory) {offset other : ℕ} (value : UInt64)
    (h : offset + 8 ≤ other ∨ other + 8 ≤ offset) :
    (write64 m other value).readWord offset 8 = m.readWord offset 8 := by
  rw [write64_eq, Memory.readWord_writeWord_of_apart m value.toNat h]

theorem write64_above (m : Memory) {offset i : ℕ} (value : UInt64) (h : offset + 8 ≤ i) :
    write64 m offset value i = m i := by
  rw [write64_eq, Memory.writeWord_of_outside m value.toNat (Or.inr h)]

/-- The command is written behind the other fields. -/
theorem Startup.strncpy {m : Memory} (h : Startup place slot mode none m) (text : Memory) :
    Startup place slot mode (some text) (m.strncpy 24 text 95) := by
  have hword (offset : ℕ) (hoffset : offset + 8 ≤ 24) :
      (m.strncpy 24 text 95).readWord offset 8 = m.readWord offset 8 :=
    Memory.readWord_congr fun i _ hi ↦ strncpy_below m text 95 (by omega)
  refine ⟨(hword 0 (by decide)).trans h.mode_eq, (hword 8 (by decide)).trans h.peer_address,
    (hword 16 (by decide)).trans h.marker_address, fun i ↦ strncpy_byte m text 24 i fun k hk ↦ ?_⟩
  obtain ⟨k, rfl⟩ := Nat.exists_eq_add_of_le hk
  exact h.command_eq k

theorem toNat_peerAddress (place : Placement) (hslot : slot < slots) :
    (UInt64.ofNat (place.memory (slot ^^^ 1) + userImageLimit - page)).toNat =
      place.memory (slot ^^^ 1) + userImageLimit - page := by
  have hother : slot ^^^ 1 < slots := Nat.xor_lt_two_pow (n := 1) hslot (by decide)
  have hbounds := process_bounds place hother
  have hmemory : place.memory (slot ^^^ 1) = place.process (slot ^^^ 1) + tablesSize := rfl
  have htables : tablesSize = 32768 := rfl
  have hlimit : userImageLimit = 8388608 := rfl
  refine UInt64.toNat_ofNat_of_lt' ?_
  change _ < 2 ^ 64
  omega

theorem writeStartup_startup (place : Placement) (hslot : slot < slots) (mode : UInt32) (command : Option Memory) :
    Startup place slot mode command (writeStartup place slot mode command Memory.zero) := by
  have hmarker : (UInt64.ofNat marker).toNat = marker := by decide
  have hmode : mode.toUInt64.toNat = mode.toNat := UInt32.toNat_toUInt64 mode
  have hfields : Startup place slot mode none (writeStartup place slot mode none Memory.zero) := by
    unfold writeStartup
    dsimp only
    by_cases hpeer : mode = umodePeerRead ∨ mode = umodePeerWrite
    · have haddress : peerAddress place slot mode = place.memory (slot ^^^ 1) + userImageLimit - page := if_pos hpeer
      rw [if_pos hpeer]
      refine ⟨?_, ?_, ?_, fun i ↦ ?_⟩
      · rw [readWord_write64_of_apart _ _ (by decide), readWord_write64_of_apart _ _ (by decide),
          readWord_write64, hmode]
      · rw [readWord_write64, toNat_peerAddress place hslot, haddress]
      · rw [readWord_write64_of_apart _ _ (by decide), readWord_write64, hmarker]
      · rw [write64_above _ _ (by omega), write64_above _ _ (by omega), write64_above _ _ (by omega)]
        rfl
    · have haddress : peerAddress place slot mode = 0 := if_neg hpeer
      rw [if_neg hpeer]
      refine ⟨?_, ?_, ?_, fun i ↦ ?_⟩
      · rw [readWord_write64_of_apart _ _ (by decide), readWord_write64, hmode]
      · rw [readWord_write64_of_apart _ _ (by decide), readWord_write64_of_apart _ _ (by decide), haddress]
        rfl
      · rw [readWord_write64, hmarker]
      · rw [write64_above _ _ (by omega), write64_above _ _ (by omega)]
        rfl
  cases command with
  | none => exact hfields
  | some text => exact hfields.strncpy text

/-! ## The arrays of a prepared process -/

theorem foldl_loadSegment_rest (place : Placement) (slot : ℕ) (segments : List UserSegment) (image : UserImage)
    (p : Process) :
    (segments.foldl (loadSegment place image slot) p).startup = p.startup ∧
      (segments.foldl (loadSegment place image slot) p).stack = p.stack := by
  induction segments generalizing p with
  | nil => exact ⟨rfl, rfl⟩
  | cons s segments ih =>
    obtain ⟨hstartup, hstack⟩ := ih (loadSegment place image slot p s)
    rw [List.foldl_cons, hstartup, hstack]
    unfold loadSegment
    rw [foldl_mapPage_eq]
    exact ⟨rfl, rfl⟩

/-- No later step writes to the other arrays. -/
theorem prepare_rest (place : Placement) (image : UserImage) (slot : ℕ) (mode : UInt32) (command : Option Memory)
    (old : Process) :
    (prepare place image slot mode command old).startup = writeStartup place slot mode command Memory.zero ∧
      (prepare place image slot mode command old).stack = Memory.zero := by
  obtain ⟨hstartup, hstack⟩ := foldl_loadSegment_rest place slot image.userSegments image
    { old.clear with tables := linkTables place slot old.clear.tables }
  unfold prepare
  dsimp only
  rw [foldl_mapPage_eq]
  exact ⟨congrArg (writeStartup place slot mode command) hstartup, hstack⟩

/-- No segment reaches the page of the marker. -/
theorem memory_marker (himage : image.Valid 16) {i : ℕ} (hi : limit ≤ i) :
    (prepare place image.toC slot mode command old).memory i = 0 := by
  rw [memory_prepare]
  refine memory_foldl_loadSegment_outside himage.segments (payloadOffset_lt himage) _ _ fun t ht ↦ Or.inr ?_
  have hvalid := himage.segments t ht
  have hfile := hvalid.file
  have hinside := hvalid.inside
  omega

theorem ram_startup (place : Placement) (slot : ℕ) (p : Process) (before : Memory) {i : ℕ} (hi : i < page) :
    place.ram slot p before (place.startup slot + i) = p.startup i := by
  have hstartup : place.startup slot = place.memory slot + userImageLimit := rfl
  unfold Placement.ram
  rw [if_neg (by omega), if_pos (by omega), Nat.add_sub_cancel_left]

theorem ram_stack (place : Placement) (slot : ℕ) (p : Process) (before : Memory) {i : ℕ} (hi : i < userStackSize) :
    place.ram slot p before (place.stack slot + i) = p.stack i := by
  have hstartup : place.startup slot = place.memory slot + userImageLimit := rfl
  have hstack : place.stack slot = place.startup slot + page := rfl
  unfold Placement.ram
  rw [if_neg (by omega), if_neg (by omega), if_pos (by omega), Nat.add_sub_cancel_left]

/-! ## The pages as ring 3 sees them -/

/-- A byte of a planned page. -/
theorem userByte_planned (hslot : slot < slots) (himage : image.Valid 16) (mode : UInt32) (command : Option Memory)
    (old : Process) (other : Frames) (ram : Memory) {m : Mapping} (hm : m ∈ plan place image slot) {i : ℕ}
    (hi : i < page) :
    userByte (place.frames slot (prepare place image.toC slot mode command old).tables other) ram
      (place.pml4 slot) (userBase + m.page * page + i) = some (ram (m.physical + i)) := by
  have hbase : userBase = 2 ^ 18 * 4096 := rfl
  have hpage : page = 4096 := rfl
  have hplace : (userBase + m.page * page + i) / page = 2 ^ 18 + m.page := by
    rw [hpage] at hi ⊢
    omega
  have hoffset : (userBase + m.page * page + i) % page = i := by
    rw [hpage] at hi ⊢
    omega
  have hwalk := walk_planned mode command old other hslot himage hm
  rw [← hplace] at hwalk
  rw [userByte_of_walk ram hwalk rfl, hoffset]

/-- For every accepted file, slot, mode and command, and whatever the slot and memory held before: the process finds
zeros in the marker and in its stack, and in the startup page the fields of `UserStartup` with zeros behind them. -/
theorem prepare_pages (place : Placement) (data : List UInt8) (image : Image) (hembed : embed data = .ok image)
    (slot : ℕ) (hslot : slot < slots) (mode : UInt32) (command : Option Memory) (old : Process) (other : Frames)
    (before : Memory) :
    let p := prepare place image.toC slot mode command old
    let read := userByte (place.frames slot p.tables other) (place.ram slot p before) (place.pml4 slot)
    (∀ i < page, read (marker + i) = some 0) ∧ (∀ i < userStackSize, read (userStackBottom + i) = some 0) ∧
      ∃ startup, Startup place slot mode command startup ∧
        ∀ i < page, read (userStartup + i) = some (startup i) := by
  intro p read
  have himage := valid_of_embed hembed
  have hpage : page = 4096 := rfl
  have hlimit : userImageLimit = 2048 * 4096 := rfl
  obtain ⟨hstartup, hstack⟩ := prepare_rest place image.toC slot mode command old
  refine ⟨fun i hi ↦ ?_, fun i hi ↦ ?_, _, writeStartup_startup place hslot mode command, fun i hi ↦ ?_⟩
  · have hplan : lowMapping place slot (W ||| NX) 2047 ∈ plan place image slot := mem_plan.mpr (.inr (.inl rfl))
    have hread := userByte_planned hslot himage mode command old other (place.ram slot p before) hplan hi
    have hvirtual : userBase + (lowMapping place slot (W ||| NX) 2047).page * page = marker :=
      (by decide : userBase + 2047 * page = marker)
    have hplace : (lowMapping place slot (W ||| NX) 2047).physical + i = place.memory slot + (2047 * 4096 + i) :=
      Nat.add_assoc _ _ _
    have hzero : p.memory (2047 * 4096 + i) = 0 := memory_marker himage (Nat.le_add_right _ _)
    rw [hvirtual, hplace, ram_memory place slot p before (by omega), hzero] at hread
    exact hread
  · have hround : i / 4096 < 64 := by
      have hsize : userStackSize = 64 * 4096 := rfl
      omega
    have hplan : stackMapping place slot (i / 4096) ∈ plan place image slot :=
      mem_plan.mpr (.inr (.inr (.inr ⟨_, hround, rfl⟩)))
    have hrest : i % 4096 < page := Nat.mod_lt _ (by decide)
    have hread := userByte_planned hslot himage mode command old other (place.ram slot p before) hplan hrest
    have hvirtual : userBase + (stackMapping place slot (i / 4096)).page * page + i % 4096 = userStackBottom + i := by
      change 0x40000000 + (2050 + i / 4096) * 4096 + i % 4096 = 0x40802000 + i
      omega
    have hplace : (stackMapping place slot (i / 4096)).physical + i % 4096 = place.stack slot + i := by
      change place.stack slot + i / 4096 * 4096 + i % 4096 = _
      omega
    rw [hvirtual, hplace, ram_stack place slot p before hi, hstack] at hread
    exact hread
  · have hplan : lowMapping place slot NX 2048 ∈ plan place image slot := mem_plan.mpr (.inr (.inr (.inl rfl)))
    have hread := userByte_planned hslot himage mode command old other (place.ram slot p before) hplan hi
    have hvirtual : userBase + (lowMapping place slot NX 2048).page * page = userStartup :=
      (by decide : userBase + 2048 * page = userStartup)
    have hplace : (lowMapping place slot NX 2048).physical + i = place.startup slot + i := rfl
    rw [hvirtual, hplace, ram_startup place slot p before hi, hstartup] at hread
    exact hread

end JordyOS.Isolation
