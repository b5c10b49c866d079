import JordyOS.Ape.Heap
import JordyOS.Files.Listing
import JordyOS.Machine.Cursor
import JordyOS.Machine.Scan

/-!
# Streams

`open_memstream`, `fopen` and the calls on the streams they open, from `ape/platform.c`.  What `malloc` answers is
arbitrary within the arena.  The variables behind `out` and `length` are part of the stream, as the last flush left
them.
-/

namespace JordyOS.Ape

open Machine Files

/-! ## The code -/

/-- A block that `malloc` grants; `room` is its `size` field. -/
structure Block (size : ℕ) where
  memory : Memory
  room : ℕ
  enough : size ≤ room
  within : room ≤ arenaSize - headerSize

/-- The answers of `malloc` at some point. -/
abbrev Malloc := (size : ℕ) → Option (Block size)

/-- `struct ApeFile`, and the size of the block at `data`. -/
structure ApeFile where
  data : Memory
  room : ℕ
  size : ℕ
  capacity : ℕ
  pos : ℕ
  out : Option (Memory × ℕ)
  writable : Bool
  name : Memory

/-- The first argument says whether there is memory for the stream itself. -/
def openMemstream (granted : Bool) (malloc : Malloc) : Option ApeFile :=
  if !granted then none
  else
    match malloc 1 with
    | none => none
    | some block =>
      let data := block.memory.set 0 0
      some ⟨data, block.room, 0, 1, 0, some (data, 0), true, Memory.zero⟩

/-- `mode[0]=='w'`. -/
def Writes (mode : CString) : Prop := mode.buffer[0]? = some 'w'.toUInt8

instance (mode : CString) : Decidable (Writes mode) := inferInstanceAs (Decidable (_ = _))

/-- A call that would read behind a name has no value. -/
def fopen (fsFiles : FileSystem) (path mode : CString) (granted : Bool) (malloc : Malloc) : Option (Option ApeFile) :=
  if path.bytes.length ≥ maxFilenameLen then some none
  else if !granted then some none
  else
    match malloc (maxFileSize + 1) with
    | none => some none
    | some block =>
      let name := Memory.ofList path.buffer
      if Writes mode then some (some ⟨block.memory.set 0 0, block.room, 0, maxFileSize + 1, 0, none, true, name⟩)
      else
        match sysReadFile fsFiles (some name) path.buffer.length (some block.memory) maxFileSize with
        | some (size, some data) =>
          if size < 0 then some none
          else some (some ⟨data.set size.toNat 0, block.room, size.toNat, maxFileSize + 1, 0, none, false, name⟩)
        | _ => none

def ApeFile.fflush (f : ApeFile) : ApeFile := { f with out := f.out.map fun _ ↦ (f.data, f.size) }

/-- The status, the file system and the variables of a memory stream. -/
def ApeFile.fclose (fsFiles : FileSystem) (f : ApeFile) : Option (ℤ × FileSystem × Option (Memory × ℕ)) :=
  let f := f.fflush
  if f.name 0 ≠ 0 ∧ f.writable then
    (sysWriteFile fsFiles (some f.name) maxFilenameLen (some f.data) f.size).map fun (status, fsFiles) ↦
      (status, fsFiles, f.out)
  else some (0, fsFiles, f.out)

def seekSet : ℤ := 0

def seekCur : ℤ := 1

/-- The sum is that of two `long`s; each other origin is the end. -/
def ApeFile.fseek (offset : Int64) (origin : ℤ) (f : ApeFile) : ℤ × ApeFile :=
  let base : ℕ := if origin = seekSet then 0 else if origin = seekCur then f.pos else f.size
  let pos := Int.bmod (base + offset.toInt) (2 ^ 64)
  if pos < 0 ∨ pos.toNat > f.size then (-1, f) else (0, { f with pos := pos.toNat })

def ApeFile.ftell (f : ApeFile) : ℕ := f.pos

def ApeFile.rewind (f : ApeFile) : ApeFile := { f with pos := 0 }

/-- The number of items, and the bytes of them. -/
def ApeFile.fread (size count : ℕ) (f : ApeFile) : ℕ × List UInt8 × ApeFile :=
  if size = 0 then (0, [], f)
  else
    let count := if count > (f.size - f.pos) / size then (f.size - f.pos) / size else count
    (count, (f.data.shift f.pos).bytes (size * count), { f with pos := f.pos + size * count })

/-- `realloc` as far as a stream sees it: a block that is large enough is kept. -/
def regrant (malloc : Malloc) (data : Memory) (room size : ℕ) : Option (Memory × ℕ) :=
  if size = 0 then none
  else if room ≥ size then some (data, room)
  else
    match malloc size with
    | none => none
    | some block => some (block.memory.copy 0 data room, block.room)

/-- What `fwrite` is given: a buffer lies in one half of the 48-bit addresses. -/
structure Items where
  size : ℕ
  count : ℕ
  bytes : List UInt8
  length_bytes : bytes.length = size * count
  within : bytes.length < 2 ^ 47

/-- The stream has room for `n` bytes and a zero behind the cursor. -/
def ApeFile.grow (malloc : Malloc) (n : ℕ) (f : ApeFile) : Option ApeFile :=
  if f.pos + n + 1 > f.capacity then
    let cap := (f.pos + n + 1) * 2 % 2 ^ 64
    match regrant malloc f.data f.room cap with
    | none => none
    | some (data, room) => some { f with data := data, room := room, capacity := cap }
  else some f

def ApeFile.fwrite (malloc : Malloc) (ptr : Items) (f : ApeFile) : ℕ × ApeFile :=
  if ptr.size = 0 ∨ ptr.count > (2 ^ 64 - 1 - f.pos - 1) / ptr.size ∨ !f.writable then (0, f)
  else
    let n := ptr.size * ptr.count
    match f.grow malloc n with
    | none => (0, f)
    | some f =>
      let size := if f.pos + n > f.size then f.pos + n else f.size
      let data := (f.data.copy f.pos (Memory.ofList ptr.bytes) n).set size 0
      (ptr.count, { f with data := data, pos := f.pos + n, size := size })

/-- The loop of `fgets`, with the bytes it still has room for. -/
def ApeFile.fgetsLoop : ℕ → ApeFile → List UInt8 × ApeFile
  | 0, f => ([], f)
  | left + 1, f =>
    if f.pos < f.size then
      let c := f.data f.pos
      let f := { f with pos := f.pos + 1 }
      if c = newline then ([c], f)
      else
        let (line, f) := fgetsLoop left f
        (c :: line, f)
    else ([], f)

/-- Whether there is a line, and what is written to the buffer. -/
def ApeFile.fgets (size : ℤ) (f : ApeFile) : Bool × List UInt8 × ApeFile :=
  if size < 2 then (false, [], f)
  else
    let (line, f) := f.fgetsLoop (size - 1).toNat
    (line ≠ [], line ++ [0], f)

end JordyOS.Ape
