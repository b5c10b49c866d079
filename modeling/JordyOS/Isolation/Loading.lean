import JordyOS.Isolation.Separation

/-!
# From the file to the mapped bytes

`embed` cuts an ELF file into payloads with recorded offsets, and `prepare` copies and maps by these
records.  Together they are the loading that the program headers describe: what a process finds at the
virtual addresses of a segment are the bytes of the file, then zeros, with the rights of the header, whatever
the memory of the slot held before.
-/

namespace JordyOS.Isolation

open Machine Paging

/-! ## Headers and segments -/

variable {data : List UInt8} {image result : Image} {h : ProgramHeader} {s t : Segment}

variable {place : Placement} {slot rounds : ℕ} {mode : UInt32} {command : Option Memory} {old : Process}

/-- Only the tables change when pages are mapped. -/
theorem foldl_mapPage_eq (offsets : List UInt64) (address physical : UInt64 → UInt64) (flags : UInt64)
    (p : Process) :
    offsets.foldl (fun p offset ↦ mapPage p (address offset) (physical offset) flags) p =
      { p with
        tables := (offsets.foldl (fun p offset ↦ mapPage p (address offset) (physical offset) flags) p).tables } := by
  induction offsets generalizing p with
  | nil => rfl
  | cons offset offsets ih => exact ih (mapPage p (address offset) (physical offset) flags)

theorem memory_loadSegment (hs : s.Valid) (hpayload : s.payloadOffset < 2 ^ 32) (image : UserImage)
    (p : Process) :
    (loadSegment place image slot p s.toC).memory =
      p.memory.copy s.offset (image.userImageBytes.shift s.payloadOffset) s.fileSize := by
  have hfile := hs.file
  have hinside := hs.inside
  have hlimit : limit = 8384512 := rfl
  have hfileSize : s.toC.fileSize.toNat = s.fileSize :=
    UInt32.toNat_ofNat_of_lt' (by rw [UInt32.size]; omega)
  have hpayloadOffset : s.toC.payloadOffset.toNat = s.payloadOffset := UInt32.toNat_ofNat_of_lt' hpayload
  unfold loadSegment
  rw [foldl_mapPage_eq, (toNat_toC hs).1, hfileSize, hpayloadOffset]

/-- Loading a segment leaves the other bytes alone. -/
theorem memory_loadSegment_outside (ht : t.Valid) (hpayload : t.payloadOffset < 2 ^ 32) (image : UserImage)
    (p : Process) {i : ℕ} (hi : i < t.offset ∨ t.offset + t.fileSize ≤ i) :
    (loadSegment place image slot p t.toC).memory i = p.memory i := by
  rw [memory_loadSegment ht hpayload]
  exact hi.elim (Memory.copy_below _ _) (Memory.copy_above _ _)

theorem memory_foldl_loadSegment_outside {segments : List Segment} (hvalid : ∀ t ∈ segments, t.Valid)
    (hpayload : ∀ t ∈ segments, t.payloadOffset < 2 ^ 32) (image : UserImage) (p : Process) {i : ℕ}
    (hi : ∀ t ∈ segments, i < t.offset ∨ t.offset + t.fileSize ≤ i) :
    ((segments.map Segment.toC).foldl (loadSegment place image slot) p).memory i = p.memory i := by
  induction segments generalizing p with
  | nil => rfl
  | cons t segments ih =>
    have hfirst : (loadSegment place image slot p t.toC).memory i = p.memory i :=
      memory_loadSegment_outside (hvalid t List.mem_cons_self) (hpayload t List.mem_cons_self) image p
        (hi t List.mem_cons_self)
    rw [List.map_cons, List.foldl_cons, ih (fun u hu ↦ hvalid u (List.mem_cons_of_mem t hu))
      (fun u hu ↦ hpayload u (List.mem_cons_of_mem t hu)) _
      (fun u hu ↦ hi u (List.mem_cons_of_mem t hu)), hfirst]

/-- The pages of one segment lie outside the bytes of another. -/
theorem Segment.Apart.outside (happart : s.Apart t) (ht : t.Valid) {i : ℕ} (hi : i < roundUp s.memorySize) :
    s.offset + i < t.offset ∨ t.offset + t.fileSize ≤ s.offset + i := by
  have hfile := ht.file
  have hround := le_roundUp t.memorySize
  rcases happart with hbelow | habove
  · omega
  · omega

theorem memory_prepare (place : Placement) (image : UserImage) (slot : ℕ) (mode : UInt32)
    (command : Option Memory) (old : Process) :
    (prepare place image slot mode command old).memory =
      (image.userSegments.foldl (loadSegment place image slot)
        { old.clear with tables := linkTables place slot old.clear.tables }).memory := by
  unfold prepare
  dsimp only
  rw [foldl_mapPage_eq]
  rfl

theorem payloadOffset_lt (himage : image.Valid 16) : ∀ t ∈ image.segments, t.payloadOffset < 2 ^ 32 := by
  intro t ht
  have hlimit : limit = 8384512 := rfl
  have hoffset := himage.payload t ht
  have hlength := himage.length
  omega

/-- Physical memory with the arrays of a process in their place. -/
def Placement.ram (place : Placement) (slot : ℕ) (p : Process) (before : Memory) : Memory := fun a ↦
  if place.memory slot ≤ a ∧ a < place.memory slot + userImageLimit then p.memory (a - place.memory slot)
  else if place.startup slot ≤ a ∧ a < place.startup slot + page then p.startup (a - place.startup slot)
  else if place.stack slot ≤ a ∧ a < place.stack slot + userStackSize then p.stack (a - place.stack slot)
  else before a

/-- The byte that ring 3 reads at a virtual address, if it may. -/
def userByte (frames : Frames) (ram : Memory) (cr3 a : ℕ) : Option UInt8 :=
  match walk frames cr3 (a / page) with
  | some u => if u.user then some (ram (u.frame + a % page)) else none
  | none => none

theorem userByte_of_walk {frames : Frames} {cr3 a : ℕ} {u : Translation} (ram : Memory)
    (hu : walk frames cr3 (a / page) = some u) (huser : u.user = true) :
    userByte frames ram cr3 a = some (ram (u.frame + a % page)) := by
  unfold userByte
  rw [hu]
  exact if_pos huser

theorem ram_memory (place : Placement) (slot : ℕ) (p : Process) (before : Memory) {i : ℕ}
    (hi : i < userImageLimit) : place.ram slot p before (place.memory slot + i) = p.memory i := by
  unfold Placement.ram
  rw [if_pos (by omega), Nat.add_sub_cancel_left]

/-- Nothing of the arrays comes from what memory held before. -/
theorem ram_private (p : Process) (before after : Memory) {a : ℕ} (ha : place.Private slot a) :
    place.ram slot p before a = place.ram slot p after a := by
  unfold Placement.ram
  rcases ha with hmemory | hstartup | hstack
  · rw [if_pos hmemory, if_pos hmemory]
  · rw [if_pos hstartup, if_pos hstartup]
  · rw [if_pos hstack, if_pos hstack]

end JordyOS.Isolation
