import JordyOS.Ape.Vectors
import JordyOS.Files.Store

/-!
# Opened streams

Each way to open a stream, and what the stream shows then: nothing, or the file that was opened for reading.  From
there on its calls are those of the vector, and a memory stream hands the vector over when it is flushed or closed.
-/

namespace JordyOS.Ape

open Machine Files

/-! ## Paths -/

variable {path mode : CString} {capacity : ℕ}

theorem ofList_buffer (path : CString) {i : ℕ} (hi : path.bytes.length ≤ i) : Memory.ofList path.buffer i = 0 := by
  rw [Memory.ofList, CString.buffer, List.getD_append_right _ _ _ _ hi]
  cases i - path.bytes.length <;> rfl

theorem ofList_buffer_of_lt (path : CString) {i : ℕ} (hi : i < path.bytes.length) :
    Memory.ofList path.buffer i = path.bytes[i] := by
  rw [Memory.ofList, CString.buffer, List.getD_append _ _ _ _ hi, List.getD_eq_getElem _ _ hi]

theorem strlen_path (path : CString) (h : path.bytes.length < capacity) :
    (Memory.ofList path.buffer).strlen capacity = some path.bytes.length := by
  refine Memory.terminator_eq_some.mpr ⟨ofList_buffer path (Nat.le_refl _), h, fun i hi ↦ ?_⟩
  rw [ofList_buffer_of_lt path hi]
  exact path.nonzero _ (List.getElem_mem hi)

theorem text_path (path : CString) (h : path.bytes.length < capacity) :
    (Memory.ofList path.buffer).text capacity = path.bytes := by
  rw [Memory.text_of_strlen (strlen_path path h)]
  refine List.ext_getElem? fun i ↦ ?_
  rw [getElem?_bytes]
  by_cases hi : i < path.bytes.length
  · rw [if_pos hi, ofList_buffer_of_lt path hi, List.getElem?_eq_getElem hi]
  · rw [if_neg hi, List.getElem?_eq_none (Nat.le_of_not_lt hi)]

/-! ## Openings -/

/-- A call that opens a stream; the table of files holds some files. -/
inductive Opening
  | memory (granted : Bool) (malloc : Malloc)
  | file (fsFiles : FileSystem) (store : Store) (represents : Represents fsFiles store) (path mode : CString)
      (granted : Bool) (malloc : Malloc)

def Opening.run : Opening → Option (Option ApeFile)
  | .memory granted malloc => some (openMemstream granted malloc)
  | .file fsFiles _ _ path mode granted malloc => fopen fsFiles path mode granted malloc

def Opening.writable : Opening → Bool
  | .memory _ _ => true
  | .file _ _ _ _ mode _ _ => Writes mode

/-- What the stream shows at first. -/
def Opening.contents : Opening → List UInt8
  | .memory _ _ => []
  | .file _ store _ path mode _ _ => if Writes mode then [] else (store.files.lookup path.bytes).getD []

/-- A stream with nothing in it. -/
theorem shows_empty {data : Memory} {room capacity : ℕ} (hcapacity : 0 < capacity) (hroom : capacity ≤ room)
    (hwithin : room ≤ arenaSize - headerSize) (out : Option (Memory × ℕ)) (writable : Bool) (name : Memory) :
    (⟨data.set 0 0, room, 0, capacity, 0, out, writable, name⟩ : ApeFile).Shows (.start []) :=
  ⟨rfl, rfl, (Memory.set_self data 0 0 : (data.set 0 0) 0 = 0), ⟨hcapacity, hroom⟩, hwithin⟩

theorem openMemstream_shows {granted : Bool} {malloc : Malloc} {f : ApeFile}
    (h : openMemstream granted malloc = some f) :
    f.Shows (.start []) ∧ f.writable = true ∧ f.out.isSome = true ∧ f.name = Memory.zero := by
  unfold openMemstream at h
  split at h
  · cases h
  · split at h
    · cases h
    · rename_i block _
      obtain rfl := Option.some.inj h
      exact ⟨shows_empty (by decide) block.enough block.within _ _ _, rfl, rfl, rfl⟩

variable {fsFiles : FileSystem} {store : Store}

/-- Without memory or with a path that is too long nothing is opened. -/
theorem fopen_of_refused {granted : Bool} {malloc : Malloc}
    (h : maxFilenameLen ≤ path.bytes.length ∨ granted = false ∨ malloc (maxFileSize + 1) = none) :
    fopen fsFiles path mode granted malloc = some none := by
  unfold fopen
  by_cases hlong : path.bytes.length ≥ maxFilenameLen
  · rw [if_pos hlong]
  rw [if_neg hlong]
  cases granted with
  | false => rfl
  | true =>
    have hmalloc : malloc (maxFileSize + 1) = none :=
      (h.resolve_left hlong).resolve_left (by decide)
    rw [hmalloc]
    rfl

/-- The memory and the path are fine: a stream for writing shows nothing. -/
theorem fopen_writing (fsFiles : FileSystem) {malloc : Malloc} {block : Block (maxFileSize + 1)}
    (hlength : path.bytes.length < maxFilenameLen) (hmalloc : malloc (maxFileSize + 1) = some block)
    (hmode : Writes mode) :
    ∃ f, fopen fsFiles path mode true malloc = some (some f) ∧ f.Shows (.start []) ∧ f.writable = true ∧
      f.out = none ∧ f.name = Memory.ofList path.buffer := by
  unfold fopen
  rw [if_neg (Nat.not_le.mpr hlength), if_neg (by decide), hmalloc]
  dsimp only
  rw [if_pos hmode]
  exact ⟨_, rfl, shows_empty (Nat.succ_pos _) block.enough block.within _ _ _, rfl, rfl, rfl⟩

/-- A stream for reading shows the file, and there is none without a file. -/
theorem fopen_reading (h : Represents fsFiles store) {malloc : Malloc} {block : Block (maxFileSize + 1)}
    (hlength : path.bytes.length < maxFilenameLen) (hmalloc : malloc (maxFileSize + 1) = some block)
    (hmode : ¬ Writes mode) :
    (store.files.lookup path.bytes = none ∧ fopen fsFiles path mode true malloc = some none) ∨
    ∃ contents f, store.files.lookup path.bytes = some contents ∧ fopen fsFiles path mode true malloc = some (some f) ∧
      f.Shows (.start contents) ∧ f.writable = false ∧ f.out = none ∧ f.name = Memory.ofList path.buffer := by
  have hbuffer : path.bytes.length < path.buffer.length := by
    rw [CString.buffer, List.length_append]
    exact Nat.lt_succ_self _
  have hread := h.sysReadFile (strlen_path path hbuffer) block.memory maxFileSize
  rw [text_path path hbuffer, Store.read, if_neg (by decide)] at hread
  unfold fopen
  rw [if_neg (Nat.not_le.mpr hlength), if_neg (by decide), hmalloc]
  dsimp only
  rw [if_neg hmode]
  cases hlookup : store.files.lookup path.bytes with
  | none =>
    rw [hlookup] at hread
    rw [hread]
    exact .inl ⟨rfl, rfl⟩
  | some contents =>
    have hsize := store.sizes _ _ hlookup
    have hfits : ¬ (maxFileSize : ℤ) < contents.length := by omega
    rw [hlookup] at hread
    dsimp only at hread
    rw [if_neg hfits] at hread
    rw [hread]
    have hcontents : ((block.memory.copy 0 (Memory.ofList contents) contents.length).set contents.length 0).bytes
        contents.length = contents := by
      refine List.ext_getElem? fun i ↦ ?_
      rw [getElem?_bytes]
      by_cases hi : i < contents.length
      · rw [if_pos hi, Memory.set_of_ne _ _ hi.ne, copy_front _ _ hi, Memory.ofList, List.getD_eq_getElem _ _ hi,
          List.getElem?_eq_getElem hi]
      · rw [if_neg hi, List.getElem?_eq_none (Nat.le_of_not_lt hi)]
    exact .inr ⟨contents, _, rfl, if_neg (by omega), ⟨hcontents, rfl, Memory.set_self _ _ _,
      ⟨Nat.lt_succ_of_le hsize, block.enough⟩, block.within⟩, rfl, rfl, rfl⟩

def Opening.isMemory : Opening → Bool
  | .memory _ _ => true
  | .file _ _ _ _ _ _ _ => false

/-- What is known of a stream that was opened. -/
structure Opened (o : Opening) (f : ApeFile) : Prop where
  shows : f.Shows (.start o.contents)
  writable : f.writable = o.writable
  out : f.out.isSome = o.isMemory
  name : o.isMemory = true → f.name = Memory.zero

theorem Opening.run_opened (o : Opening) : ∃ opened, o.run = some opened ∧ ∀ f ∈ opened, Opened o f := by
  cases o with
  | memory granted malloc =>
    refine ⟨_, rfl, fun f hf ↦ ?_⟩
    obtain ⟨hshows, hwritable, hout, hname⟩ := openMemstream_shows hf
    exact ⟨hshows, hwritable, hout, fun _ ↦ hname⟩
  | file fsFiles store represents path mode granted malloc =>
    change ∃ opened, fopen fsFiles path mode granted malloc = some opened ∧ _
    by_cases hrefused : maxFilenameLen ≤ path.bytes.length ∨ granted = false ∨ malloc (maxFileSize + 1) = none
    · exact ⟨none, fopen_of_refused hrefused, nofun⟩
    rw [not_or, not_or, Nat.not_le, Bool.not_eq_false] at hrefused
    obtain ⟨hlength, rfl, hmalloc⟩ := hrefused
    obtain ⟨block, hblock⟩ := Option.ne_none_iff_exists'.mp hmalloc
    by_cases hmode : Writes mode
    · obtain ⟨f, hopen, hshows, hwritable, hout, -⟩ := fopen_writing fsFiles hlength hblock hmode
      refine ⟨some f, hopen, fun g hg ↦ ?_⟩
      obtain rfl := Option.some.inj hg
      refine ⟨?_, hwritable.trans (decide_eq_true hmode).symm, by rw [hout]; rfl, nofun⟩
      rwa [Opening.contents, if_pos hmode]
    · rcases fopen_reading represents hlength hblock hmode with
        ⟨-, hopen⟩ | ⟨contents, f, hlookup, hopen, hshows, hwritable, hout, -⟩
      · exact ⟨none, hopen, nofun⟩
      · refine ⟨some f, hopen, fun g hg ↦ ?_⟩
        obtain rfl := Option.some.inj hg
        refine ⟨?_, hwritable.trans (decide_eq_false hmode).symm, by rw [hout]; rfl, nofun⟩
        rwa [Opening.contents, if_neg hmode, hlookup]

/-- When a memory stream is flushed or closed, the caller has the vector, with a zero behind it. -/
def HandsOver (f : ApeFile) (v : Cursor UInt8) : Prop :=
  ∃ buffer : Memory, f.fflush.out = some (buffer, v.items.length) ∧ buffer.bytes v.items.length = v.items ∧
    buffer v.items.length = 0 ∧ ∀ fsFiles, f.fclose fsFiles = some (0, fsFiles, some (buffer, v.items.length))

theorem ApeFile.Shows.handsOver {f : ApeFile} {v : Cursor UInt8} (h : f.Shows v) (hout : f.out.isSome = true)
    (hname : f.name = Memory.zero) : HandsOver f v := by
  obtain ⟨place, hplace⟩ := Option.isSome_iff_exists.mp hout
  have hflush : f.fflush.out = some (f.data, v.items.length) := by
    rw [ApeFile.fflush, hplace, ← h.size]
    rfl
  refine ⟨f.data, hflush, by rw [← h.size]; exact h.contents, by rw [← h.size]; exact h.terminated, fun fsFiles ↦ ?_⟩
  have hzero : ¬ (f.fflush.name 0 ≠ 0 ∧ f.fflush.writable = true) := fun hnamed ↦ hnamed.1 (congrFun hname 0)
  rw [ApeFile.fclose, if_neg hzero, hflush]

/-- Whichever way a stream is opened, its calls are those of the vector, whatever memory there is: the cursor and the
contents agree, and a zero stands behind the contents, inside the buffer. -/
theorem Opening.calls_permitted (o : Opening) (calls : List Call) :
    ∃ opened, o.run = some opened ∧ ∀ f ∈ opened, ∃ v,
      Allowed (Permits o.writable) (.start o.contents) calls (answers ApeFile.call f calls).1 v ∧
      (answers ApeFile.call f calls).2.Shows v ∧
      (answers ApeFile.call f calls).2.pos ≤ (answers ApeFile.call f calls).2.size ∧
      (o.isMemory = true → HandsOver (answers ApeFile.call f calls).2 v) := by
  obtain ⟨opened, hrun, hopened⟩ := o.run_opened
  refine ⟨opened, hrun, fun f hf ↦ ?_⟩
  have hf := hopened f hf
  obtain ⟨v, hallowed, hshows, hkept⟩ := hf.shows.calls calls
  rw [hf.writable] at hallowed
  exact ⟨v, hallowed, hshows, hshows.pos_le, fun hmemory ↦
    hshows.handsOver (hkept.out.trans (hf.out.trans hmemory)) (hkept.name.trans (hf.name hmemory))⟩

/-- Memory that is granted as long as the arena could hold it. -/
def generous : Malloc := fun size ↦
  if h : size ≤ arenaSize - headerSize then some ⟨Memory.zero, size, Nat.le_refl _, h⟩ else none

def greeting : Items := ⟨1, 3, [104, 105, 10], rfl, by decide⟩

example : ∃ f, (Opening.memory true generous).run = some (some f) ∧
    (answers ApeFile.call f [.fwrite greeting generous, .fseek 1 0, .ftell, .fread 1 5, .rewind, .fgets 10]).1 =
      [.count 3, .status 0, .position 1, .read 2 [105, 10], .done, .line true [104, 105, 10, 0]] := ⟨_, rfl, rfl⟩

/-! ### An item without bytes -/

def emptyItem : Items := ⟨0, 1, [], rfl, by decide⟩

/-- One item of no bytes is not written to a writable stream, although there is memory. -/
theorem fwrite_emptyItem :
    ∃ f, openMemstream true generous = some f ∧ f.writable = true ∧
      generous ((f.pos + emptyItem.bytes.length + 1) * 2) ≠ none ∧ (f.fwrite generous emptyItem).1 ≠ emptyItem.count :=
  ⟨_, rfl, rfl, nofun, by decide⟩

end JordyOS.Ape
