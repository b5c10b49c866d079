import JordyOS.Machine.Memory

/-!
# The user image

`tools/embed_user.py`: from the bytes of an ELF file to the segment table that the kernel is compiled
with, or the error that stops the build.  Python integers are natural numbers; the C constants in the
generated `image.h` are 32 bits wide.
-/

namespace JordyOS.Isolation

open Machine

/-- `BASE`, which `abi.h` calls `USER_BASE`. -/
def userBase : ℕ := 0x40000000

/-- `LIMIT`: the image ends before the marker page. -/
def limit : ℕ := 8 * 1024 * 1024 - 4096

/-! ## Reading the file -/

def littleEndian (bytes : List UInt8) : ℕ :=
  bytes.foldr (fun byte value ↦ byte.toNat + 256 * value) 0

/-- One field of `struct.unpack_from`. -/
def unpack (data : List UInt8) (offset size : ℕ) : ℕ :=
  littleEndian ((data.drop offset).take size)

/-- The fields of `<16sHHIQQQIHHHHHH` that are used: items 1, 2, 4, 5, 9 and 10. -/
structure FileHeader where
  type : ℕ
  machine : ℕ
  entry : ℕ
  phoff : ℕ
  phentsize : ℕ
  phnum : ℕ

def unpackHeader (data : List UInt8) : FileHeader where
  type := unpack data 16 2
  machine := unpack data 18 2
  entry := unpack data 24 8
  phoff := unpack data 32 8
  phentsize := unpack data 54 2
  phnum := unpack data 56 2

/-- The fields of `<IIQQQQQQ` that are used. -/
structure ProgramHeader where
  kind : ℕ
  flags : UInt32
  offset : ℕ
  virtual : ℕ
  filesz : ℕ
  memsz : ℕ

def unpackProgramHeader (data : List UInt8) (position : ℕ) : ProgramHeader where
  kind := unpack data position 4
  flags := UInt32.ofNat (unpack data (position + 4) 4)
  offset := unpack data (position + 8) 8
  virtual := unpack data (position + 16) 8
  filesz := unpack data (position + 32) 8
  memsz := unpack data (position + 40) 8

/-! ## Segments -/

/-- An entry of `segments`, under the names of the generated `UserSegment`. -/
structure Segment where
  offset : ℕ
  memorySize : ℕ
  fileSize : ℕ
  payloadOffset : ℕ
  flags : UInt32
  deriving DecidableEq

/-- `(size + 4095) // 4096 * 4096`. -/
def roundUp (size : ℕ) : ℕ := (size + 4095) / 4096 * 4096

structure Image where
  entry : ℕ
  payload : List UInt8
  segments : List Segment
  deriving DecidableEq

/-- One round of the loop over the program headers. -/
def embedSegment (data : List UInt8) (image : Image) (h : ProgramHeader) : Except String Image :=
  if h.kind = 2 ∨ h.kind = 3 then .error "Dynamic user images are not supported"
  else if h.kind ≠ 1 then .ok image
  else
    let relative := h.virtual - userBase
    -- the subtraction of the source is negative where it is cut off here
    if h.virtual < userBase ∨ h.virtual % 4096 ≠ 0 ∨ relative + h.memsz > limit ∨ h.filesz > h.memsz ∨
        h.offset + h.filesz > data.length then .error "Invalid user segment range/alignment"
    else if h.flags &&& 4 = 0 ∨ h.flags &&& ~~~7 ≠ 0 ∨ h.flags &&& 3 = 3 then
      .error "User segments must be readable and cannot be writable+executable"
    else if image.segments.any fun previous ↦
        relative < previous.offset + roundUp previous.memorySize && relative + h.memsz > previous.offset then
      .error "User segment pages overlap"
    else .ok { image with
      segments := image.segments ++ [⟨relative, h.memsz, h.filesz, image.payload.length, h.flags⟩]
      payload := image.payload ++ (data.drop h.offset).take h.filesz }

/-- The test after the loop, on `segments[0]`. -/
def initialRx : List Segment → Bool
  | [] => false
  | first :: _ => first.offset == 0 && first.flags == 5 && first.fileSize != 0

def embed (data : List UInt8) : Except String Image :=
  if data.length < 64 ∨ data.take 7 ≠ [0x7f, 0x45, 0x4c, 0x46, 2, 1, 1] then
    .error "User image must be little-endian ELF64"
  else
    let h := unpackHeader data
    if h.type ≠ 2 ∨ h.machine ≠ 62 ∨ h.phentsize ≠ 56 ∨ h.entry ≠ userBase then
      .error "Expected static x86-64 user executable at USER_BASE"
    else if h.phnum = 0 ∨ h.phnum > 16 ∨ h.phoff + h.phnum * 56 > data.length then
      .error "Invalid user program-header table"
    else
      let headers := (List.range h.phnum).map fun i ↦ unpackProgramHeader data (h.phoff + i * 56)
      match headers.foldlM (embedSegment data) ⟨h.entry, [], []⟩ with
      | .error message => .error message
      | .ok image =>
        if initialRx image.segments then .ok image
        else .error "User entry must be in the initial RX segment"

/-! ## The generated header -/

/-- `UserSegment` of the generated `image.h`. -/
structure UserSegment where
  offset : UInt32
  memorySize : UInt32
  fileSize : UInt32
  payloadOffset : UInt32
  flags : UInt32

/-- The two constants of `image.h`. -/
structure UserImage where
  userImageBytes : Memory
  userSegments : List UserSegment

def Segment.toC (s : Segment) : UserSegment where
  offset := UInt32.ofNat s.offset
  memorySize := UInt32.ofNat s.memorySize
  fileSize := UInt32.ofNat s.fileSize
  payloadOffset := UInt32.ofNat s.payloadOffset
  flags := s.flags

def Image.toC (image : Image) : UserImage where
  userImageBytes := Memory.ofList image.payload
  userSegments := image.segments.map Segment.toC

/-! ## What is accepted -/

/-- A segment that passed the tests made of it alone. -/
structure Segment.Valid (s : Segment) : Prop where
  aligned : s.offset % 4096 = 0
  inside : s.offset + s.memorySize ≤ limit
  file : s.fileSize ≤ s.memorySize
  flags : s.flags = 4 ∨ s.flags = 5 ∨ s.flags = 6

/-- No page belongs to both segments. -/
def Segment.Apart (s t : Segment) : Prop :=
  s.offset + roundUp s.memorySize ≤ t.offset ∨ t.offset + roundUp t.memorySize ≤ s.offset

/-- What the loop keeps after at most `rounds` rounds. -/
structure Image.Valid (rounds : ℕ) (image : Image) : Prop where
  segments : ∀ s ∈ image.segments, s.Valid
  apart : image.segments.Pairwise Segment.Apart
  payload : ∀ s ∈ image.segments, s.payloadOffset + s.fileSize ≤ image.payload.length
  length : image.payload.length ≤ rounds * limit

/-- A number without bits above the third is below 8. -/
theorem toNat_lt_of_and_not {flags : UInt32} (h : flags &&& ~~~7 = 0) : flags.toNat < 8 := by
  refine Nat.lt_pow_two_of_testBit (n := 3) flags.toNat fun i hi ↦ ?_
  by_cases hbound : i < 32
  · have hmask : (~~~7 : UInt32).toNat = 2 ^ 3 * (2 ^ 29 - 1) := rfl
    have hbit := congrArg (fun word : UInt32 ↦ word.toNat.testBit i) h
    simp only [UInt32.toNat_and, Nat.testBit_and, hmask, Nat.testBit_two_pow_mul,
      Nat.testBit_two_pow_sub_one, UInt32.toNat_zero, Nat.zero_testBit] at hbit
    rw [decide_eq_true (by omega), decide_eq_true (by omega), Bool.and_true, Bool.and_true] at hbit
    exact hbit
  · refine Nat.testBit_lt_two_pow (Nat.lt_of_lt_of_le flags.toNat_lt ?_)
    exact Nat.pow_le_pow_right (by decide) (Nat.le_of_not_lt hbound)

theorem flags_of_checks {flags : UInt32}
    (h : ¬ (flags &&& 4 = 0 ∨ flags &&& ~~~7 ≠ 0 ∨ flags &&& 3 = 3)) :
    flags = 4 ∨ flags = 5 ∨ flags = 6 := by
  simp only [not_or, not_not] at h
  obtain ⟨hread, hrest, hboth⟩ := h
  have hall : ∀ n : Fin 8, ¬ (UInt32.ofNat n &&& 4 = 0) → ¬ (UInt32.ofNat n &&& 3 = 3) →
      UInt32.ofNat n = 4 ∨ UInt32.ofNat n = 5 ∨ UInt32.ofNat n = 6 := by decide
  have hflags : UInt32.ofNat flags.toNat = flags := UInt32.ofNat_toNat
  rw [← hflags] at hread hboth ⊢
  exact hall ⟨flags.toNat, toNat_lt_of_and_not hrest⟩ hread hboth

theorem le_roundUp (size : ℕ) : size ≤ roundUp size := by
  unfold roundUp
  omega

/-- A size inside an aligned region stays inside when it is rounded up. -/
theorem add_roundUp_le {offset size bound : ℕ} (hoffset : offset % 4096 = 0) (hbound : bound % 4096 = 0)
    (h : offset + size ≤ bound) : offset + roundUp size ≤ bound := by
  unfold roundUp
  omega

variable {data : List UInt8} {image result : Image} {h : ProgramHeader} {rounds : ℕ}

/-- The segment that a loadable header becomes. -/
def Image.segmentOf (image : Image) (h : ProgramHeader) : Segment :=
  ⟨h.virtual - userBase, h.memsz, h.filesz, image.payload.length, h.flags⟩

/-- What a loadable header passed when the loop added its segment. -/
structure Image.Adds (data : List UInt8) (image result : Image) (h : ProgramHeader) : Prop where
  above : userBase ≤ h.virtual
  valid : (image.segmentOf h).Valid
  file : h.offset + h.filesz ≤ data.length
  clear : ∀ s ∈ image.segments, h.virtual - userBase < s.offset + roundUp s.memorySize →
    h.virtual - userBase + h.memsz ≤ s.offset
  result : result = { image with
    segments := image.segments ++ [image.segmentOf h]
    payload := image.payload ++ (data.drop h.offset).take h.filesz }

/-- A round that does not stop passes over its header or adds the segment of it. -/
theorem embedSegment_cases (hround : embedSegment data image h = .ok result) :
    (h.kind ≠ 1 ∧ result = image) ∨ (h.kind = 1 ∧ image.Adds data result h) := by
  unfold embedSegment at hround
  split at hround
  · cases hround
  split at hround
  · rename_i hkind
    cases hround
    exact .inl ⟨hkind, rfl⟩
  rename_i hkind
  dsimp only at hround
  split at hround
  · cases hround
  rename_i hrange
  split at hround
  · cases hround
  rename_i hflags
  split at hround
  · cases hround
  rename_i hoverlap
  cases hround
  simp only [not_or, not_not, Nat.not_lt] at hrange
  obtain ⟨hbase, haligned, hinside, hfile, hdata⟩ := hrange
  have hbase_aligned : userBase % 4096 = 0 := by decide
  have hoffset : (h.virtual - userBase) % 4096 = 0 := by omega
  refine .inr ⟨not_not.mp hkind, hbase, ⟨hoffset, hinside, hfile, flags_of_checks hflags⟩, hdata, ?_, rfl⟩
  intro s hs hbelow
  have hclear := List.any_eq_false.mp (Bool.eq_false_iff.mpr hoverlap) s hs
  simp only [Bool.and_eq_true, decide_eq_true_eq, not_and, Nat.not_lt] at hclear
  exact hclear hbelow

theorem Image.Adds.length_slice (h' : image.Adds data result h) :
    ((data.drop h.offset).take h.filesz).length = h.filesz := by
  have hfile := h'.file
  rw [List.length_take, List.length_drop]
  omega

/-- A round that does not stop keeps what earlier rounds established. -/
theorem Image.Valid.embedSegment (hvalid : image.Valid rounds)
    (hround : Isolation.embedSegment data image h = .ok result) : result.Valid (rounds + 1) := by
  rcases embedSegment_cases hround with ⟨-, rfl⟩ | ⟨-, hadds⟩
  · exact ⟨hvalid.segments, hvalid.apart, hvalid.payload,
      Nat.le_trans hvalid.length (Nat.mul_le_mul_right limit (Nat.le_succ rounds))⟩
  have hlength := hadds.length_slice
  have hnew := hadds.valid
  have hclear := hadds.clear
  obtain rfl := hadds.result
  refine ⟨?_, ?_, ?_, ?_⟩
  · intro s hs
    rcases List.mem_append.mp hs with hs | hs
    · exact hvalid.segments s hs
    · rw [List.mem_singleton.mp hs]
      exact hnew
  · refine List.pairwise_append.mpr ⟨hvalid.apart, List.pairwise_singleton _ _, fun s hs t ht ↦ ?_⟩
    rw [List.mem_singleton.mp ht]
    by_cases hbelow : h.virtual - userBase < s.offset + roundUp s.memorySize
    · exact .inr (add_roundUp_le hnew.aligned (hvalid.segments s hs).aligned (hclear s hs hbelow))
    · exact .inl (Nat.le_of_not_lt hbelow)
  · intro s hs
    rw [List.length_append, hlength]
    rcases List.mem_append.mp hs with hs | hs
    · exact Nat.le_trans (hvalid.payload s hs) (Nat.le_add_right _ _)
    · obtain rfl := List.mem_singleton.mp hs
      exact Nat.le_refl _
  · have hinside := hnew.inside
    have hfile := hnew.file
    have hold := hvalid.length
    rw [List.length_append, hlength]
    have hsize : h.filesz ≤ limit :=
      calc
        h.filesz ≤ h.memsz := hfile
        _ ≤ h.virtual - userBase + h.memsz := Nat.le_add_left _ _
        _ ≤ limit := hinside
    calc
      _ ≤ rounds * limit + limit := Nat.add_le_add hold hsize
      _ = _ := (Nat.succ_mul rounds limit).symm

theorem Image.Valid.foldlM {headers : List ProgramHeader} (hvalid : image.Valid rounds)
    (hloop : headers.foldlM (Isolation.embedSegment data) image = .ok result) :
    result.Valid (rounds + headers.length) := by
  induction headers generalizing image rounds with
  | nil =>
    cases hloop
    exact hvalid
  | cons h headers ih =>
    rw [List.foldlM_cons] at hloop
    cases hround : Isolation.embedSegment data image h with
    | error message =>
      rw [hround] at hloop
      cases hloop
    | ok next =>
      rw [hround] at hloop
      have hlength : rounds + (h :: headers).length = rounds + 1 + headers.length := by
        rw [List.length_cons]
        omega
      rw [hlength]
      exact ih (hvalid.embedSegment hround) hloop

/-- The program headers of a file. -/
def programHeaders (data : List UInt8) : List ProgramHeader :=
  let h := unpackHeader data
  (List.range h.phnum).map fun i ↦ unpackProgramHeader data (h.phoff + i * 56)

/-- What holds of a file that is accepted. -/
theorem embed_cases (h : embed data = .ok image) :
    (unpackHeader data).entry = userBase ∧ (programHeaders data).length ≤ 16 ∧
      (programHeaders data).foldlM (embedSegment data) ⟨userBase, [], []⟩ = .ok image ∧
      initialRx image.segments = true := by
  unfold embed at h
  split at h
  · cases h
  dsimp only at h
  split at h
  · cases h
  rename_i hheader
  split at h
  · cases h
  rename_i hcount
  split at h
  · cases h
  rename_i hloop
  split at h
  · rename_i hinitial
    cases h
    have hentry : (unpackHeader data).entry = userBase := by
      by_contra hother
      exact hheader (.inr (.inr (.inr hother)))
    have hlength : (programHeaders data).length = (unpackHeader data).phnum := by
      rw [programHeaders, List.length_map, List.length_range]
    rw [hentry] at hloop
    exact ⟨hentry, by omega, hloop, hinitial⟩
  · cases h

theorem valid_of_embed (h : embed data = .ok image) : image.Valid 16 := by
  obtain ⟨-, hcount, hloop, -⟩ := embed_cases h
  have hempty : Image.Valid 0 ⟨userBase, [], []⟩ :=
    ⟨by simp, List.Pairwise.nil, by simp, Nat.zero_le _⟩
  have hvalid := hempty.foldlM hloop
  rw [Nat.zero_add] at hvalid
  exact ⟨hvalid.segments, hvalid.apart, hvalid.payload,
    Nat.le_trans hvalid.length (Nat.mul_le_mul_right limit hcount)⟩

end JordyOS.Isolation
