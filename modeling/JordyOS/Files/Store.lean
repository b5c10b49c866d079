import JordyOS.Files.FileSystem

/-!
# The file system as a bounded map

What the file system is for: a finite map from names to contents, with bounds on names, contents and
the number of files.  Every sequence of calls after `fs_init` is answered as this map answers it.
-/

namespace JordyOS.Files

open Machine

/-! ## The map -/

/-- The files by name. -/
structure Store where
  files : Finmap fun _ : List UInt8 ↦ List UInt8
  names : ∀ name ∈ files, name ≠ [] ∧ name.length < maxFilenameLen
  sizes : ∀ name contents, files.lookup name = some contents → contents.length ≤ maxFileSize
  count : files.keys.card ≤ maxFiles

namespace Store

def empty : Store where
  files := ∅
  names _ hname := absurd hname Finmap.notMem_empty
  sizes _ _ hlookup := absurd hlookup (by rw [Finmap.lookup_empty]; nofun)
  count := Nat.zero_le _

/-- The contents of a file are set. -/
def insert (s : Store) (name contents : List UInt8) (hname : name ≠ [] ∧ name.length < maxFilenameLen)
    (hsize : contents.length ≤ maxFileSize) (hroom : name ∈ s.files ∨ s.files.keys.card < maxFiles) :
    Store where
  files := s.files.insert name contents
  names other hother := by
    rcases Finmap.mem_insert.mp hother with rfl | hold
    · exact hname
    · exact s.names other hold
  sizes other found hfound := by
    by_cases hsame : other = name
    · rw [hsame, Finmap.lookup_insert, Option.some.injEq] at hfound
      exact hfound ▸ hsize
    · rw [Finmap.lookup_insert_of_ne _ hsame] at hfound
      exact s.sizes other found hfound
  count := by
    have hkeys : (s.files.insert name contents).keys = Insert.insert name s.files.keys := by
      ext other
      rw [Finset.mem_insert, Finmap.mem_keys, Finmap.mem_keys, Finmap.mem_insert]
    rw [hkeys]
    rcases hroom with hold | hroom
    · rw [Finset.insert_eq_of_mem (Finmap.mem_keys.mpr hold)]
      exact s.count
    · exact (Finset.card_insert_le _ _).trans hroom

def erase (s : Store) (name : List UInt8) : Store where
  files := s.files.erase name
  names other hother := s.names other (Finmap.mem_erase.mp hother).2
  sizes other found hfound := by
    by_cases hsame : other = name
    · rw [hsame, Finmap.lookup_erase] at hfound
      cases hfound
    · rw [Finmap.lookup_erase_ne hsame] at hfound
      exact s.sizes other found hfound
  count := by
    rw [Finmap.keys_erase]
    exact (Finset.card_erase_le).trans s.count

/-- A new file needs room, an existing one does not. -/
def write (s : Store) (name contents : List UInt8) : ℤ × Store :=
  if hname : name ≠ [] ∧ name.length < maxFilenameLen then
    if hsize : contents.length ≤ maxFileSize then
      if hroom : name ∈ s.files ∨ s.files.keys.card < maxFiles then
        (0, s.insert name contents hname hsize hroom)
      else (-4, s)
    else (-3, s)
  else (-2, s)

/-- The contents are copied to a buffer with `room` bytes of room. -/
def read (s : Store) (name : List UInt8) (buffer : Memory) (room : ℤ) : ℤ × Memory :=
  if room ≤ 0 then (-1, buffer)
  else
    match s.files.lookup name with
    | none => (-1, buffer)
    | some contents =>
      if room < contents.length then (-2, buffer)
      else (contents.length, buffer.copy 0 (Memory.ofList contents) contents.length)

def delete (s : Store) (name : List UInt8) : ℤ × Store :=
  if name ∈ s.files then (0, s.erase name) else (-1, s)

end Store

/-! ## Calls -/

/-- A call of the file system, with the size of the buffer of its name. -/
inductive Call
  | write (fn : Option Memory) (capacity : ℕ) (d : Option Memory) (dl : ℤ)
  | read (fn : Option Memory) (capacity : ℕ) (ub : Option Memory) (us : ℤ)
  | delete (fn : Option Memory) (capacity : ℕ)

/-- The name is null or ends inside its buffer. -/
def Call.Terminated : Call → Prop
  | .write fn capacity _ _ | .read fn capacity _ _ | .delete fn capacity =>
    ∀ name, fn = some name → ∃ length, name.strlen capacity = some length

/-- What a call returns, and the buffer it was given to read into. -/
structure Outcome where
  result : ℤ
  buffer : Option Memory

namespace FileSystem

def call (fsFiles : FileSystem) : Call → Option (Outcome × FileSystem)
  | .write fn capacity d dl =>
    (sysWriteFile fsFiles fn capacity d dl).map fun (result, fsFiles) ↦ (⟨result, none⟩, fsFiles)
  | .read fn capacity ub us =>
    (sysReadFile fsFiles fn capacity ub us).map fun (result, ub) ↦ (⟨result, ub⟩, fsFiles)
  | .delete fn capacity =>
    (sysDeleteFile fsFiles fn capacity).map fun (result, fsFiles) ↦ (⟨result, none⟩, fsFiles)

def calls (fsFiles : FileSystem) : List Call → Option (List Outcome × FileSystem)
  | [] => some ([], fsFiles)
  | c :: rest =>
    match fsFiles.call c with
    | none => none
    | some (outcome, fsFiles) =>
      (calls fsFiles rest).map fun (outcomes, fsFiles) ↦ (outcome :: outcomes, fsFiles)

end FileSystem

namespace Store

/-- The answer of the map; a null pointer or a negative length is answered before the map is asked. -/
def answer (s : Store) : Call → Outcome × Store
  | .write (some fn) capacity (some d) dl =>
    if dl < 0 then (⟨-1, none⟩, s)
    else
      let (result, s) := s.write (fn.text capacity) (d.bytes dl.toNat)
      (⟨result, none⟩, s)
  | .write _ _ _ _ => (⟨-1, none⟩, s)
  | .read (some fn) capacity (some ub) us =>
    let (result, ub) := s.read (fn.text capacity) ub us
    (⟨result, some ub⟩, s)
  | .read _ _ ub _ => (⟨-1, ub⟩, s)
  | .delete (some fn) capacity =>
    let (result, s) := s.delete (fn.text capacity)
    (⟨result, none⟩, s)
  | .delete none _ => (⟨-1, none⟩, s)

def answers (s : Store) : List Call → List Outcome × Store
  | [] => ([], s)
  | c :: rest =>
    let (outcome, s) := s.answer c
    let (outcomes, s) := answers s rest
    (outcome :: outcomes, s)

end Store

/-! ## Refinement -/

/-- The table holds the files of the map. -/
structure Represents (fsFiles : FileSystem) (s : Store) : Prop where
  terminated : Terminated fsFiles
  slots : Slots maxFiles (fun i ↦ (fsFiles i).entry) s.files

variable {fsFiles : FileSystem} {s : Store}

theorem File.entry_eq_some {f : File} {name contents : List UInt8} (h : f.entry = some (name, contents)) :
    f.inUse = true ∧ f.name.text maxFilenameLen = name ∧ f.data.bytes f.size = contents := by
  unfold entry at h
  split at h
  · rename_i huse
    rw [Option.some.injEq, Prod.mk.injEq] at h
    exact ⟨huse, h.1, h.2⟩
  · cases h

theorem represents_fsInit (previous : FileSystem) : Represents (fsInit previous) Store.empty where
  terminated i hi huse := by
    rw [fsInit, if_pos hi] at huse
    cases huse
  slots := by
    refine Slots.empty fun i hi ↦ ?_
    simp only [fsInit, if_pos hi, File.entry, Bool.false_eq_true, if_false]

/-- The entries of a table with one file replaced. -/
theorem entry_update (fsFiles : FileSystem) (i : ℕ) (f : File) :
    (fun j ↦ (Function.update fsFiles i f j).entry) =
      Function.update (fun j ↦ (fsFiles j).entry) i f.entry := by
  funext j
  by_cases h : j = i
  · rw [h, Function.update_self, Function.update_self]
  · rw [Function.update_of_ne h, Function.update_of_ne h]

theorem Terminated.update (h : Terminated fsFiles) {i : ℕ} {f : File}
    (hf : f.inUse = true → ∃ n, f.name.strlen maxFilenameLen = some n) :
    Terminated (Function.update fsFiles i f) := by
  intro j hj huse
  by_cases hji : j = i
  · rw [hji, Function.update_self] at huse ⊢
    exact hf huse
  · rw [Function.update_of_ne hji] at huse ⊢
    exact h j hj huse

/-- `fs_find_file` looks the name up in the map. -/
theorem Represents.find (h : Represents fsFiles s) {fn : Memory} {capacity length : ℕ}
    (hname : fn.strlen capacity = some length) :
    (fsFindFile fsFiles fn capacity = some none ∧ s.files.lookup (fn.text capacity) = none) ∨
      ∃ i < maxFiles, fsFindFile fsFiles fn capacity = some (some i) ∧
        (fsFiles i).entry = some (fn.text capacity, (fsFiles i).data.bytes (fsFiles i).size) ∧
        s.files.lookup (fn.text capacity) = some ((fsFiles i).data.bytes (fsFiles i).size) := by
  rcases fsFindFile_cases hname h.terminated with ⟨hnone, hother⟩ | ⟨i, hi, hfound, hentry⟩
  · refine Or.inl ⟨hnone, ?_⟩
    rw [Finmap.lookup_eq_none, h.slots.mem_iff]
    rintro ⟨i, hi, contents, hentry⟩
    exact hother i hi contents hentry
  · exact Or.inr ⟨i, hi, hfound, hentry, (h.slots.lookup _ _).mpr ⟨i, hi, hentry⟩⟩

theorem Represents.sysReadFile (h : Represents fsFiles s) {fn : Memory} {capacity length : ℕ}
    (hname : fn.strlen capacity = some length) (ub : Memory) (us : ℤ) :
    Files.sysReadFile fsFiles (some fn) capacity (some ub) us =
      some ((s.read (fn.text capacity) ub us).1, some (s.read (fn.text capacity) ub us).2) := by
  unfold Files.sysReadFile Store.read
  dsimp only
  split
  · rfl
  · rcases h.find hname with ⟨hnone, hlookup⟩ | ⟨i, -, hfound, -, hlookup⟩
    · rw [hnone, hlookup]
    · rw [hfound, hlookup]
      simp only [Memory.length_bytes]
      split
      · rfl
      · have hcopy : ub.copy 0 (fsFiles i).data (fsFiles i).size = ub.copy 0
            (Memory.ofList ((fsFiles i).data.bytes (fsFiles i).size)) (fsFiles i).size := by
          funext k
          unfold Memory.copy
          split
          · rename_i hk
            rw [Memory.ofList_bytes _ (by omega)]
          · rfl
        rw [hcopy]

/-- The table after a file was written. -/
theorem Represents.insert (h : Represents fsFiles s) {i : ℕ} (hi : i < maxFiles) {f : File}
    {name contents : List UInt8} (hentry : f.entry = some (name, contents))
    (hterminated : ∃ n, f.name.strlen maxFilenameLen = some n)
    (hown : ∀ other old, (fsFiles i).entry = some (other, old) → other = name)
    (hother : ∀ j < maxFiles, j ≠ i → ∀ old, (fsFiles j).entry ≠ some (name, old))
    (hname : name ≠ [] ∧ name.length < maxFilenameLen) (hsize : contents.length ≤ maxFileSize)
    (hroom : name ∈ s.files ∨ s.files.keys.card < maxFiles) :
    Represents (Function.update fsFiles i f) (s.insert name contents hname hsize hroom) where
  terminated := h.terminated.update fun _ ↦ hterminated
  slots := by
    rw [entry_update, hentry]
    exact h.slots.insert hi contents hown hother

/-- A free slot exists as long as the map has room. -/
theorem Represents.card_lt_iff (h : Represents fsFiles s) :
    s.files.keys.card < maxFiles ↔ ∃ i < maxFiles, (fsFiles i).inUse = false := by
  have hused : ∀ i, (fsFiles i).entry.isSome = (fsFiles i).inUse := by
    intro i
    unfold File.entry
    split
    · rename_i huse
      rw [huse, Option.isSome_some]
    · rename_i huse
      rw [Option.isSome_none, Bool.eq_false_iff.mpr huse]
  have hfull := h.slots.card_eq_capacity_iff
  simp only [hused] at hfull
  rw [Nat.lt_iff_le_and_ne, and_iff_right h.slots.card_le, ne_eq, hfull]
  simp

/-- A file that exists is written in place. -/
theorem Represents.overwrite (h : Represents fsFiles s) {i : ℕ} (hi : i < maxFiles)
    {name old : List UInt8} (hentry : (fsFiles i).entry = some (name, old)) (d : Memory) (size : ℕ)
    (hname : name ≠ [] ∧ name.length < maxFilenameLen) (hsize : (d.bytes size).length ≤ maxFileSize)
    (hroom : name ∈ s.files ∨ s.files.keys.card < maxFiles) :
    Represents (Function.update fsFiles i ((fsFiles i).fill d size))
      (s.insert name (d.bytes size) hname hsize hroom) := by
  obtain ⟨huse, htext, -⟩ := File.entry_eq_some hentry
  have hwritten := File.entry_fill (fsFiles i) d size huse
  rw [htext] at hwritten
  refine h.insert hi hwritten (h.terminated i hi huse) ?_ ?_ hname hsize hroom
  · intro other found hsame
    exact (File.entry_eq_some hsame).2.1.symm.trans htext
  · intro j hj hji found hsame
    exact hji (h.slots.distinct j hj i hi name found old hsame hentry)

/-- A new file takes a free slot. -/
theorem Represents.create (h : Represents fsFiles s) {i : ℕ} (hi : i < maxFiles)
    (hunused : (fsFiles i).inUse = false) {fn : Memory} {capacity length : ℕ}
    (hstring : fn.strlen capacity = some length) (hnew : fn.text capacity ∉ s.files) (d : Memory)
    (size : ℕ) (hname : fn.text capacity ≠ [] ∧ (fn.text capacity).length < maxFilenameLen)
    (hsize : (d.bytes size).length ≤ maxFileSize)
    (hroom : fn.text capacity ∈ s.files ∨ s.files.keys.card < maxFiles) :
    Represents (Function.update fsFiles i (((fsFiles i).claim fn).fill d size))
      (s.insert (fn.text capacity) (d.bytes size) hname hsize hroom) := by
  have hshort : length < maxFilenameLen := by
    have hlength := hname.2
    rwa [Memory.text_of_strlen hstring, Memory.length_bytes] at hlength
  obtain ⟨hstrlen, htext⟩ := (fsFiles i).strlen_claim hstring hshort
  have hwritten := File.entry_fill ((fsFiles i).claim fn) d size rfl
  rw [htext] at hwritten
  refine h.insert hi hwritten ⟨length, hstrlen⟩ ?_ ?_ hname hsize hroom
  · intro other old hold
    rw [(File.entry_eq_some hold).1] at hunused
    cases hunused
  · intro j hj _ old hold
    exact hnew (h.slots.mem_iff.mpr ⟨j, hj, old, hold⟩)

theorem Represents.sysWriteFile (h : Represents fsFiles s) {fn : Memory} {capacity length : ℕ}
    (hname : fn.strlen capacity = some length) (d : Memory) {dl : ℤ} (hdl : 0 ≤ dl) :
    ∃ next, Files.sysWriteFile fsFiles (some fn) capacity (some d) dl =
        some ((s.write (fn.text capacity) (d.bytes dl.toNat)).1, next) ∧
      Represents next (s.write (fn.text capacity) (d.bytes dl.toNat)).2 := by
  have hlength : (fn.text capacity).length = length := by
    rw [Memory.text_of_strlen hname, Memory.length_bytes]
  have hempty : fn 0 = 0 ↔ fn.text capacity = [] := by
    obtain ⟨hzero, -, hbefore⟩ := Memory.terminator_eq_some.mp hname
    rw [← List.length_eq_zero_iff, hlength]
    constructor
    · intro hfirst
      exact Nat.eq_zero_of_not_pos fun hpos ↦ hbefore 0 hpos hfirst
    · rintro rfl
      exact hzero
  unfold Files.sysWriteFile Store.write
  simp only [hname]
  rw [if_neg (not_lt.mpr hdl)]
  by_cases hvalid : fn.text capacity ≠ [] ∧ (fn.text capacity).length < maxFilenameLen
  · rw [dif_pos hvalid, if_neg (by rw [hempty, ← hlength, not_or, not_le]; exact hvalid)]
    by_cases hsize : (d.bytes dl.toNat).length ≤ maxFileSize
    · have hsize' : ¬ dl > maxFileSize := by
        rw [Memory.length_bytes] at hsize
        omega
      rw [dif_pos hsize, if_neg hsize']
      rcases h.find hname with ⟨hnone, hlookup⟩ | ⟨i, hi, hfound, hentry, hlookup⟩
      · have hnew : fn.text capacity ∉ s.files := Finmap.lookup_eq_none.mp hlookup
        rw [hnone]
        rcases fsFindEmptySlot_cases fsFiles with ⟨hfull, hall⟩ | ⟨i, hi, hfree, hunused⟩
        · have hroom : ¬ s.files.keys.card < maxFiles := by
            rw [h.card_lt_iff]
            rintro ⟨i, hi, hunused⟩
            rw [hall i hi] at hunused
            cases hunused
          rw [hfull, dif_neg (not_or.mpr ⟨hnew, hroom⟩)]
          exact ⟨fsFiles, rfl, h⟩
        · have hroom := Or.inr (a := fn.text capacity ∈ s.files) (h.card_lt_iff.mpr ⟨i, hi, hunused⟩)
          rw [hfree, dif_pos hroom]
          exact ⟨_, rfl, h.create hi hunused hname hnew d _ hvalid hsize hroom⟩
      · have hroom := Or.inl (b := s.files.keys.card < maxFiles)
          (Finmap.mem_of_lookup_eq_some hlookup)
        rw [hfound, dif_pos hroom]
        exact ⟨_, rfl, h.overwrite hi hentry d _ hvalid hsize hroom⟩
    · have hsize' : dl > maxFileSize := by
        rw [Memory.length_bytes] at hsize
        omega
      rw [dif_neg hsize, if_pos hsize']
      exact ⟨fsFiles, rfl, h⟩
  · have hinvalid : fn 0 = 0 ∨ length ≥ maxFilenameLen := by
      rw [not_and_or, not_ne_iff, not_lt] at hvalid
      rwa [hempty, ← hlength]
    rw [dif_neg hvalid, if_pos hinvalid]
    exact ⟨fsFiles, rfl, h⟩

theorem Represents.sysDeleteFile (h : Represents fsFiles s) {fn : Memory} {capacity length : ℕ}
    (hname : fn.strlen capacity = some length) :
    ∃ next, Files.sysDeleteFile fsFiles (some fn) capacity =
        some ((s.delete (fn.text capacity)).1, next) ∧
      Represents next (s.delete (fn.text capacity)).2 := by
  unfold Files.sysDeleteFile Store.delete
  rcases h.find hname with ⟨hnone, hlookup⟩ | ⟨i, hi, hfound, hentry, hlookup⟩
  · simp only [hnone]
    rw [if_neg (Finmap.lookup_eq_none.mp hlookup)]
    exact ⟨fsFiles, rfl, h⟩
  · simp only [hfound]
    rw [if_pos (Finmap.mem_of_lookup_eq_some hlookup)]
    refine ⟨_, rfl, h.terminated.update nofun, ?_⟩
    rw [entry_update]
    exact h.slots.erase hi hentry

/-- One call is answered as the map answers it. -/
theorem Represents.call (h : Represents fsFiles s) (c : Call) (hc : c.Terminated) :
    ∃ next, FileSystem.call fsFiles c = some ((s.answer c).1, next) ∧ Represents next (s.answer c).2 := by
  cases c with
  | write fn capacity d dl =>
    cases fn with
    | none => exact ⟨fsFiles, rfl, h⟩
    | some fn =>
      cases d with
      | none => exact ⟨fsFiles, rfl, h⟩
      | some d =>
        obtain ⟨length, hname⟩ := hc fn rfl
        by_cases hdl : dl < 0
        · simp only [FileSystem.call, Files.sysWriteFile, Store.answer, if_pos hdl, Option.map_some]
          exact ⟨fsFiles, rfl, h⟩
        · obtain ⟨next, hresult, hnext⟩ := h.sysWriteFile hname d (Int.not_lt.mp hdl)
          simp only [FileSystem.call, Store.answer, hresult, if_neg hdl, Option.map_some]
          exact ⟨next, rfl, hnext⟩
  | read fn capacity ub us =>
    cases fn with
    | none => exact ⟨fsFiles, rfl, h⟩
    | some fn =>
      cases ub with
      | none => exact ⟨fsFiles, rfl, h⟩
      | some ub =>
        obtain ⟨length, hname⟩ := hc fn rfl
        simp only [FileSystem.call, Store.answer, h.sysReadFile hname ub us, Option.map_some]
        exact ⟨fsFiles, rfl, h⟩
  | delete fn capacity =>
    cases fn with
    | none => exact ⟨fsFiles, rfl, h⟩
    | some fn =>
      obtain ⟨length, hname⟩ := hc fn rfl
      obtain ⟨next, hresult, hnext⟩ := h.sysDeleteFile hname
      simp only [FileSystem.call, Store.answer, hresult, Option.map_some]
      exact ⟨next, rfl, hnext⟩

/-- A sequence of calls is answered as the map answers it. -/
theorem Represents.calls (h : Represents fsFiles s) (l : List Call) (hl : ∀ c ∈ l, c.Terminated) :
    ∃ next, FileSystem.calls fsFiles l = some ((s.answers l).1, next) ∧
      Represents next (s.answers l).2 := by
  induction l generalizing fsFiles s with
  | nil => exact ⟨fsFiles, rfl, h⟩
  | cons c rest ih =>
    obtain ⟨middle, hcall, hmiddle⟩ := h.call c (hl c List.mem_cons_self)
    obtain ⟨next, hcalls, hnext⟩ := ih hmiddle fun c hc ↦ hl c (List.mem_cons_of_mem _ hc)
    simp only [FileSystem.calls, Store.answers, hcall, hcalls, Option.map_some]
    exact ⟨next, rfl, hnext⟩

/-- From the state left by `fs_init` on, every sequence of calls is answered as the map answers it; the
names in use are distinct, and there are as many as files in the map. -/
theorem fsInit_refines (previous : FileSystem) (l : List Call) (hl : ∀ c ∈ l, c.Terminated) :
    ∃ next, FileSystem.calls (fsInit previous) l = some ((Store.empty.answers l).1, next) ∧
      Represents next (Store.empty.answers l).2 ∧
      (∀ i < maxFiles, ∀ j < maxFiles, (next i).inUse = true → (next j).inUse = true →
        (next i).name.text maxFilenameLen = (next j).name.text maxFilenameLen → i = j) ∧
      ((Finset.range maxFiles).filter fun i ↦ (next i).inUse = true).card =
        (Store.empty.answers l).2.files.keys.card := by
  obtain ⟨next, hcalls, hnext⟩ := (represents_fsInit previous).calls l hl
  have hentry : ∀ i, (next i).inUse = true →
      (next i).entry = some ((next i).name.text maxFilenameLen, (next i).data.bytes (next i).size) :=
    fun i huse ↦ if_pos huse
  refine ⟨next, hcalls, hnext, ?_, ?_⟩
  · intro i hi j hj hiuse hjuse hsame
    have hfirst := hentry i hiuse
    rw [hsame] at hfirst
    exact hnext.slots.distinct i hi j hj _ _ _ hfirst (hentry j hjuse)
  · rw [hnext.slots.card_eq]
    refine congrArg Finset.card (Finset.filter_congr fun i _ ↦ ?_)
    constructor
    · intro huse
      rw [hentry i huse, Option.isSome_some]
    · intro hsome
      obtain ⟨⟨name, contents⟩, hfile⟩ := Option.isSome_iff_exists.mp hsome
      exact (File.entry_eq_some hfile).1

/-! ### A shorter second version -/

/-- `notes` is written twice and read back. -/
def rewriteCalls : List Call :=
  let notes := some (Memory.ofList [110, 111, 116, 101, 115])
  [.write notes 6 (some (Memory.ofList [1, 0, 2])) 3, .write notes 6 (some (Memory.ofList [7])) 1,
    .read notes 6 (some Memory.zero) 16]

theorem fsInit_refines_rewriteCalls :
    ∃ next outcomes, FileSystem.calls (fsInit fun _ ↦ ⟨Memory.zero, Memory.zero, 0, false⟩) rewriteCalls =
        some (outcomes, next) ∧ outcomes.map Outcome.result = [0, 0, 1] := by
  have hname : (Memory.ofList [110, 111, 116, 101, 115]).strlen 6 = some 5 := by decide +kernel
  have hterminated : ∀ c ∈ rewriteCalls, c.Terminated := by
    intro c hc
    simp only [rewriteCalls, List.mem_cons, List.not_mem_nil, or_false] at hc
    rcases hc with rfl | rfl | rfl
    all_goals
      intro name hsame
      rw [← Option.some.inj hsame]
      exact ⟨5, hname⟩
  obtain ⟨next, hcalls, -⟩ := fsInit_refines (fun _ ↦ ⟨Memory.zero, Memory.zero, 0, false⟩) rewriteCalls
    hterminated
  exact ⟨next, _, hcalls, by decide +kernel⟩

end JordyOS.Files
