import JordyOS.Files.Listing

/-!
# The file calls and the buffers they are given

The three calls that read or write a buffer of their caller, with every access to the buffer and to the data of a file
checked.  Where the length that the caller passes is at most the size of its buffer, no access fails and the calls are
the plain ones.
-/

namespace JordyOS.Files

open Machine

/-! ## The code -/

-- The size of the caller's buffer.
variable (room : ℕ)

def sysReadFileIn (fsFiles : FileSystem) (fn : Memory) (capacity : ℕ) (ub : Memory) (us : ℤ) : Option (ℤ × Memory) :=
  if us ≤ 0 then some (-1, ub)
  else
    match fsFindFile fsFiles fn capacity with
    | none => none
    | some none => some (-1, ub)
    | some (some fi) =>
      if us < (fsFiles fi).size then some (-2, ub)
      else if (fsFiles fi).size ≤ maxFileSize then
        (writeBytes ub room 0 ((fsFiles fi).data.bytes (fsFiles fi).size)).map fun ub ↦ ((fsFiles fi).size, ub)
      else none

/-- `memcpy(fs_files[fi].data, d, dl)`, from a buffer and to an array. -/
def File.fillFrom (f : File) (d : Memory) (dl : ℕ) : Option File :=
  if dl ≤ room then
    (writeBytes f.data maxFileSize 0 (d.bytes dl)).map fun data ↦ { f with data := data, size := dl }
  else none

def sysWriteFileIn (fsFiles : FileSystem) (fn : Memory) (capacity : ℕ) (d : Memory) (dl : ℤ) :
    Option (ℤ × FileSystem) :=
  if dl < 0 then some (-1, fsFiles)
  else
    match fn.strlen capacity with
    | none => none
    | some length =>
      if fn 0 = 0 ∨ length ≥ maxFilenameLen then some (-2, fsFiles)
      else if dl > maxFileSize then some (-3, fsFiles)
      else
        match fsFindFile fsFiles fn capacity with
        | none => none
        | some (some fi) =>
          ((fsFiles fi).fillFrom room d dl.toNat).map fun f ↦ (0, Function.update fsFiles fi f)
        | some none =>
          match fsFindEmptySlot fsFiles with
          | none => some (-4, fsFiles)
          | some fi =>
            (((fsFiles fi).claim fn).fillFrom room d dl.toNat).map fun f ↦ (0, Function.update fsFiles fi f)

def listLoopIn (fsFiles : FileSystem) (bl : ℕ) :
    List ℕ → (ob : Memory) → (cp : ℕ) → (ff : Bool) → Option (ℕ × Memory)
  | [], ob, cp, _ => some (cp, ob)
  | i :: rest, ob, cp, ff =>
    if (fsFiles i).inUse then
      if ff = false ∧ ¬ cp < bl - 1 then some (cp, ob)
      else do
        let (ob, cp) ← if ff then some (ob, cp) else (writeBytes ob room cp [newline]).map fun ob ↦ (ob, cp + 1)
        let nl ← (fsFiles i).name.strlen maxFilenameLen
        if cp + nl < bl then do
          let ob ← writeBytes ob room cp ((fsFiles i).name.bytes (nl + 1))
          listLoopIn fsFiles bl rest ob (cp + nl) false
        else some (cp, ob)
    else listLoopIn fsFiles bl rest ob cp ff

def sysListFilesIn (fsFiles : FileSystem) (ob : Memory) (bl : ℤ) : Option (ℤ × Memory) :=
  if bl ≤ 0 then some (-1, ob)
  else do
    let ob ← writeBytes ob room 0 (Memory.zero.bytes bl.toNat)
    let (cp, ob) ← listLoopIn room fsFiles bl.toNat (List.range maxFiles) ob 0 true
    some (cp, ob)

/-! ## No access fails -/

variable {room} {fsFiles : FileSystem} {s : Store} {fn ub ob : Memory} {capacity length : ℕ} {us dl bl : ℤ}

theorem File.fillFrom_eq (f : File) (d : Memory) {dl : ℕ} (hroom : dl ≤ room) (hsize : dl ≤ maxFileSize) :
    f.fillFrom room d dl = some (f.fill d dl) := by
  have hwrite : writeBytes f.data maxFileSize 0 (d.bytes dl) = some (f.data.copy 0 d dl) :=
    writeBytes_of_le f.data d (by omega)
  rw [fillFrom, if_pos hroom, hwrite]
  rfl

/-- No more is read than there is room for. -/
theorem Store.read_le (s : Store) (name : List UInt8) (buffer : Memory) (hus : 0 ≤ us) :
    (s.read name buffer us).1 ≤ us := by
  unfold read
  by_cases hempty : us ≤ 0
  · rw [if_pos hempty]
    dsimp only
    omega
  rw [if_neg hempty]
  cases s.files.lookup name with
  | none =>
    dsimp only
    omega
  | some contents =>
    dsimp only
    by_cases hlarge : us < contents.length
    · rw [if_pos hlarge]
      dsimp only
      omega
    · rw [if_neg hlarge]
      exact Int.not_lt.mp hlarge

theorem sysReadFileIn_eq (hus : us ≤ room) (hsize : us ≤ maxFileSize) :
    (sysReadFileIn room fsFiles fn capacity ub us).map (fun (n, ub) ↦ (n, some ub)) =
      sysReadFile fsFiles (some fn) capacity (some ub) us := by
  unfold sysReadFileIn sysReadFile
  dsimp only
  by_cases hempty : us ≤ 0
  · rw [if_pos hempty, if_pos hempty]
    rfl
  rw [if_neg hempty, if_neg hempty]
  cases fsFindFile fsFiles fn capacity with
  | none => rfl
  | some found =>
    cases found with
    | none => rfl
    | some fi =>
      dsimp only
      by_cases hlarge : us < (fsFiles fi).size
      · rw [if_pos hlarge, if_pos hlarge]
        rfl
      · have hfits : (fsFiles fi).size ≤ maxFileSize := by omega
        rw [if_neg hlarge, if_neg hlarge, if_pos hfits, writeBytes_of_le ub (fsFiles fi).data (by omega)]
        rfl

theorem sysWriteFileIn_eq (d : Memory) (hroom : dl ≤ room) :
    sysWriteFileIn room fsFiles fn capacity d dl = sysWriteFile fsFiles (some fn) capacity (some d) dl := by
  unfold sysWriteFileIn sysWriteFile
  dsimp only
  by_cases hnegative : dl < 0
  · rw [if_pos hnegative, if_pos hnegative]
  rw [if_neg hnegative, if_neg hnegative]
  cases fn.strlen capacity with
  | none => rfl
  | some length =>
    dsimp only
    by_cases hname : fn 0 = 0 ∨ length ≥ maxFilenameLen
    · rw [if_pos hname, if_pos hname]
    rw [if_neg hname, if_neg hname]
    by_cases hlarge : dl > maxFileSize
    · rw [if_pos hlarge, if_pos hlarge]
    rw [if_neg hlarge, if_neg hlarge]
    have hfill : ∀ f : File, f.fillFrom room d dl.toNat = some (f.fill d dl.toNat) := fun f ↦
      f.fillFrom_eq d (by omega) (by omega)
    cases fsFindFile fsFiles fn capacity with
    | none => rfl
    | some found =>
      cases found with
      | some fi =>
        dsimp only
        rw [hfill]
        rfl
      | none =>
        dsimp only
        cases fsFindEmptySlot fsFiles with
        | none => rfl
        | some fi =>
          dsimp only
          rw [hfill]
          rfl

theorem writeBytes_newline {cp : ℕ} (hcp : cp < room) (ob : Memory) :
    writeBytes ob room cp [newline] = some (ob.set cp newline) := by
  have hroom : cp + [newline].length ≤ room := hcp
  rw [writeBytes, if_pos hroom]
  congr 1
  funext i
  unfold Memory.copy Memory.set
  by_cases hi : i = cp
  · rw [if_pos hi, if_pos ⟨hi.ge, by rw [hi]; exact Nat.lt_succ_self cp⟩, hi, Nat.sub_self]
    rfl
  · refine (if_neg fun hin ↦ hi ?_).trans (if_neg hi).symm
    have hlt : i < cp + 1 := hin.2
    omega

/-- The loop writes in front of `bl` only. -/
theorem listLoopIn_eq {bl : ℕ} (hbl : bl ≤ room) (slots : List ℕ) (ob : Memory) (cp : ℕ) (ff : Bool) :
    listLoopIn room fsFiles bl slots ob cp ff = listLoop fsFiles bl slots ob cp ff := by
  induction slots generalizing ob cp ff with
  | nil => rfl
  | cons i rest ih =>
    rw [listLoopIn, listLoop]
    by_cases huse : (fsFiles i).inUse = true
    · rw [if_pos huse, if_pos huse]
      by_cases hfull : ff = false ∧ ¬ cp < bl - 1
      · rw [if_pos hfull, if_pos hfull]
      rw [if_neg hfull, if_neg hfull]
      have hseparator : ff = false → writeBytes ob room cp [newline] = some (ob.set cp newline) := by
        intro hff
        refine writeBytes_newline ?_ ob
        by_contra hlast
        exact hfull ⟨hff, by omega⟩
      cases hname : (fsFiles i).name.strlen maxFilenameLen with
      | none =>
        cases ff with
        | true => rfl
        | false =>
          simp only [Bool.false_eq_true, if_false, hseparator rfl]
          rfl
      | some nl =>
        -- the name stands behind what the round has written in front of it
        have hcopy : ∀ (ob : Memory) (cp : ℕ), (if cp + nl < bl then do
              let ob ← writeBytes ob room cp ((fsFiles i).name.bytes (nl + 1))
              listLoopIn room fsFiles bl rest ob (cp + nl) false
            else some (cp, ob)) =
            if cp + nl < bl then
              listLoop fsFiles bl rest (ob.copy cp (fsFiles i).name (nl + 1)) (cp + nl) false
            else some (cp, ob) := by
          intro ob cp
          by_cases hfits : cp + nl < bl
          · rw [if_pos hfits, if_pos hfits, writeBytes_of_le ob (fsFiles i).name (by omega)]
            exact ih _ _ _
          · rw [if_neg hfits, if_neg hfits]
        cases ff with
        | true => exact hcopy ob cp
        | false =>
          simp only [Bool.false_eq_true, if_false, hseparator rfl]
          exact hcopy (ob.set cp newline) (cp + 1)
    · rw [if_neg huse, if_neg huse]
      exact ih ob cp ff

theorem sysListFilesIn_eq (hbl : bl ≤ room) :
    (sysListFilesIn room fsFiles ob bl).map (fun (n, ob) ↦ (n, some ob)) = sysListFiles fsFiles (some ob) bl := by
  unfold sysListFilesIn sysListFiles
  dsimp only
  by_cases hempty : bl ≤ 0
  · rw [if_pos hempty, if_pos hempty]
    rfl
  rw [if_neg hempty, if_neg hempty, writeBytes_of_le ob Memory.zero (by omega)]
  dsimp only [Option.bind_eq_bind, Option.bind_some]
  rw [listLoopIn_eq (by omega)]
  cases listLoop fsFiles bl.toNat (List.range maxFiles) (ob.copy 0 Memory.zero bl.toNat) 0 true <;> rfl

end JordyOS.Files
