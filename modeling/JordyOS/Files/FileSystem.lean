import JordyOS.Machine.Slots
import JordyOS.Machine.Text

/-!
# The RAM file system

The file table of `kernel.c` and the calls that look up, read, write and delete a file.  A slot keeps the
bytes of its last occupant.  A pointer argument may be null; a name comes with the size of its buffer, and
a call that would read behind it has no value.
-/

namespace JordyOS.Files

open Machine

/-! ## The code -/

def maxFiles : ℕ := 16
def maxFileSize : ℕ := 16384
def maxFilenameLen : ℕ := 32

/-- `file_t`. -/
structure File where
  name : Memory
  data : Memory
  size : ℕ
  inUse : Bool

/-- `fs_files`. -/
abbrev FileSystem := ℕ → File

def fsInit (fsFiles : FileSystem) : FileSystem := fun i ↦
  if i < maxFiles then
    { inUse := false
      name := (fsFiles i).name.set 0 0
      size := 0
      data := (fsFiles i).data.copy 0 Memory.zero maxFileSize }
  else fsFiles i

/-- The slots that `fs_find_file` has still to look at. -/
def fsFindLoop (fsFiles : FileSystem) (fn : Memory) (capacity : ℕ) : List ℕ → Option (Option ℕ)
  | [] => some none
  | i :: rest =>
    if (fsFiles i).inUse then
      match (fsFiles i).name.strcmp fn maxFilenameLen capacity with
      | none => none
      | some difference =>
        if difference = 0 then some (some i) else fsFindLoop fsFiles fn capacity rest
    else fsFindLoop fsFiles fn capacity rest

/-- The inner `none` is the result -1. -/
def fsFindFile (fsFiles : FileSystem) (fn : Memory) (capacity : ℕ) : Option (Option ℕ) :=
  fsFindLoop fsFiles fn capacity (List.range maxFiles)

/-- `none` is the result -1. -/
def fsFindEmptySlot (fsFiles : FileSystem) : Option ℕ :=
  (List.range maxFiles).find? fun i ↦ !(fsFiles i).inUse

/-- The result and the caller's buffer. -/
def sysReadFile (fsFiles : FileSystem) (fn : Option Memory) (capacity : ℕ) (ub : Option Memory) (us : ℤ) :
    Option (ℤ × Option Memory) :=
  match fn, ub with
  | some fn, some ub =>
    if us ≤ 0 then some (-1, some ub)
    else
      match fsFindFile fsFiles fn capacity with
      | none => none
      | some none => some (-1, some ub)
      | some (some fi) =>
        if us < (fsFiles fi).size then some (-2, some ub)
        else some ((fsFiles fi).size, some (ub.copy 0 (fsFiles fi).data (fsFiles fi).size))
  | _, ub => some (-1, ub)

/-- A free slot takes the name. -/
def File.claim (f : File) (fn : Memory) : File :=
  { f with
    inUse := true
    name := (f.name.strncpy 0 fn (maxFilenameLen - 1)).set (maxFilenameLen - 1) 0 }

/-- The contents are written to a slot. -/
def File.fill (f : File) (d : Memory) (dl : ℕ) : File :=
  { f with data := f.data.copy 0 d dl, size := dl }

def sysWriteFile (fsFiles : FileSystem) (fn : Option Memory) (capacity : ℕ) (d : Option Memory) (dl : ℤ) :
    Option (ℤ × FileSystem) :=
  match fn, d with
  | some fn, some d =>
    if dl < 0 then some (-1, fsFiles)
    else
      match fn.strlen capacity with
      | none => none
      | some length =>
        if fn 0 = 0 ∨ length ≥ maxFilenameLen then some (-2, fsFiles)
        else if dl > maxFileSize then some (-3, fsFiles)
        else
          match fsFindFile fsFiles fn capacity with
          | none => none
          | some (some fi) =>
            some (0, Function.update fsFiles fi ((fsFiles fi).fill d dl.toNat))
          | some none =>
            match fsFindEmptySlot fsFiles with
            | none => some (-4, fsFiles)
            | some fi =>
              some (0, Function.update fsFiles fi (((fsFiles fi).claim fn).fill d dl.toNat))
  | _, _ => some (-1, fsFiles)

def sysDeleteFile (fsFiles : FileSystem) (fn : Option Memory) (capacity : ℕ) :
    Option (ℤ × FileSystem) :=
  match fn with
  | some fn =>
    match fsFindFile fsFiles fn capacity with
    | none => none
    | some none => some (-1, fsFiles)
    | some (some fi) =>
      some (0, Function.update fsFiles fi
        { fsFiles fi with inUse := false, name := (fsFiles fi).name.set 0 0, size := 0 })
  | none => some (-1, fsFiles)

/-! ## Lookup -/

/-- The name and the contents of a file in use. -/
def File.entry (f : File) : Option (List UInt8 × List UInt8) :=
  if f.inUse then some (f.name.text maxFilenameLen, f.data.bytes f.size) else none

/-- Every name in use ends inside its array. -/
def Terminated (fsFiles : FileSystem) : Prop :=
  ∀ i < maxFiles, (fsFiles i).inUse = true → ∃ n, (fsFiles i).name.strlen maxFilenameLen = some n

variable {fsFiles : FileSystem} {fn : Memory} {capacity length : ℕ}

theorem fsFindLoop_cases (hname : fn.strlen capacity = some length) (slots : List ℕ)
    (hslots : ∀ i ∈ slots, (fsFiles i).inUse = true →
      ∃ n, (fsFiles i).name.strlen maxFilenameLen = some n) :
    (fsFindLoop fsFiles fn capacity slots = some none ∧
        ∀ i ∈ slots, ∀ contents, (fsFiles i).entry ≠ some (fn.text capacity, contents)) ∨
      ∃ i ∈ slots, fsFindLoop fsFiles fn capacity slots = some (some i) ∧
        (fsFiles i).entry = some (fn.text capacity, (fsFiles i).data.bytes (fsFiles i).size) := by
  induction slots with
  | nil => exact Or.inl ⟨rfl, nofun⟩
  | cons i rest ih =>
    have hrest := ih fun j hj ↦ hslots j (List.mem_cons_of_mem i hj)
    -- a slot that is passed over leaves the decision to the rest
    have hpass : (∀ contents, (fsFiles i).entry ≠ some (fn.text capacity, contents)) →
        fsFindLoop fsFiles fn capacity (i :: rest) = fsFindLoop fsFiles fn capacity rest →
        (fsFindLoop fsFiles fn capacity (i :: rest) = some none ∧
            ∀ j ∈ i :: rest, ∀ contents, (fsFiles j).entry ≠ some (fn.text capacity, contents)) ∨
          ∃ j ∈ i :: rest, fsFindLoop fsFiles fn capacity (i :: rest) = some (some j) ∧
            (fsFiles j).entry = some (fn.text capacity, (fsFiles j).data.bytes (fsFiles j).size) := by
      intro hother hloop
      rw [hloop]
      rcases hrest with ⟨hnone, hall⟩ | ⟨j, hj, hfound, hentry⟩
      · exact Or.inl ⟨hnone, List.forall_mem_cons.mpr ⟨hother, hall⟩⟩
      · exact Or.inr ⟨j, List.mem_cons_of_mem i hj, hfound, hentry⟩
    cases huse : (fsFiles i).inUse with
    | false =>
      refine hpass (fun contents ↦ ?_) ?_
      · simp [File.entry, huse]
      · simp [fsFindLoop, huse]
    | true =>
      obtain ⟨n, hn⟩ := hslots i List.mem_cons_self huse
      obtain ⟨difference, hcmp, hzero⟩ := Memory.strcmp_of_strlen hn hname
      rw [← Memory.text_of_strlen hn, ← Memory.text_of_strlen hname] at hzero
      by_cases hsame : difference = 0
      · refine Or.inr ⟨i, List.mem_cons_self, ?_, ?_⟩
        · simp [fsFindLoop, huse, hcmp, hsame]
        · simp [File.entry, huse, hzero.mp hsame]
      · refine hpass (fun contents hentry ↦ ?_) ?_
        · simp only [File.entry, huse, if_true, Option.some.injEq, Prod.mk.injEq] at hentry
          exact hsame (hzero.mpr hentry.1)
        · simp [fsFindLoop, huse, hcmp, hsame]

/-- `fs_find_file` finds the file of that name, if there is one. -/
theorem fsFindFile_cases (hname : fn.strlen capacity = some length) (h : Terminated fsFiles) :
    (fsFindFile fsFiles fn capacity = some none ∧
        ∀ i < maxFiles, ∀ contents, (fsFiles i).entry ≠ some (fn.text capacity, contents)) ∨
      ∃ i < maxFiles, fsFindFile fsFiles fn capacity = some (some i) ∧
        (fsFiles i).entry = some (fn.text capacity, (fsFiles i).data.bytes (fsFiles i).size) := by
  have hcases := fsFindLoop_cases hname (List.range maxFiles) fun i hi ↦ h i (List.mem_range.mp hi)
  unfold fsFindFile
  simpa only [List.mem_range] using hcases

/-- `fs_find_empty_slot` finds a free slot, if there is one. -/
theorem fsFindEmptySlot_cases (fsFiles : FileSystem) :
    (fsFindEmptySlot fsFiles = none ∧ ∀ i < maxFiles, (fsFiles i).inUse = true) ∨
      ∃ i < maxFiles, fsFindEmptySlot fsFiles = some i ∧ (fsFiles i).inUse = false := by
  unfold fsFindEmptySlot
  cases hfound : (List.range maxFiles).find? fun i ↦ !(fsFiles i).inUse with
  | none =>
    refine Or.inl ⟨rfl, fun i hi ↦ ?_⟩
    simpa using List.find?_eq_none.mp hfound i (List.mem_range.mpr hi)
  | some i =>
    refine Or.inr ⟨i, List.mem_range.mp (List.mem_of_find?_eq_some hfound), rfl, ?_⟩
    simpa using List.find?_some hfound

/-! ## Slots that are written -/

theorem File.entry_fill (f : File) (d : Memory) (dl : ℕ) (h : f.inUse = true) :
    (f.fill d dl).entry = some (f.name.text maxFilenameLen, d.bytes dl) := by
  have hdata : (f.data.copy 0 d dl).bytes dl = d.bytes dl := by
    rw [Memory.bytes_eq_bytes_iff]
    refine ⟨rfl, fun i hi ↦ ?_⟩
    have hcopy : f.data.copy 0 d dl (0 + i) = d i := Memory.copy_inside _ _ hi
    rwa [Nat.zero_add] at hcopy
  simp only [entry, fill, h, if_true, hdata]

theorem File.strlen_claim (f : File) (hname : fn.strlen capacity = some length)
    (hlength : length < maxFilenameLen) :
    (f.claim fn).name.strlen maxFilenameLen = some length ∧
      (f.claim fn).name.text maxFilenameLen = fn.text capacity := by
  have hfits : length ≤ maxFilenameLen - 1 := Nat.le_sub_one_of_lt hlength
  obtain ⟨hstrlen, hbytes⟩ := Memory.strlen_strncpy hname hfits f.name
  have hstrlen' : (f.claim fn).name.strlen maxFilenameLen = some length := hstrlen
  refine ⟨hstrlen', ?_⟩
  rw [Memory.text_of_strlen hstrlen', Memory.text_of_strlen hname]
  exact hbytes

end JordyOS.Files
