import JordyOS.Ape.Opening

/-!
# What a closed stream leaves behind

`fclose` on a stream opened for writing.  It hands the bytes to the file system under the stream's name, unless the
name is empty: then the stream counts as a memory stream, and the bytes are lost without an error.
-/

namespace JordyOS.Ape

open Machine Files

variable {fsFiles : FileSystem} {store : Store} {path mode : CString} {f : ApeFile} {v : Cursor UInt8}

/-! ## Writing a file -/

/-- A write that fails leaves the file system as it is. -/
theorem sysWriteFile_failed {fn d : Option Memory} {capacity : ℕ} {dl status : ℤ} {next : FileSystem}
    (h : sysWriteFile fsFiles fn capacity d dl = some (status, next)) (hstatus : status ≠ 0) : next = fsFiles := by
  have hsame {code : ℤ} (hcode : some (code, fsFiles) = some (status, next)) : next = fsFiles :=
    (Prod.mk.inj (Option.some.inj hcode)).2.symm
  have hdone {written : FileSystem} (hcode : some ((0 : ℤ), written) = some (status, next)) : next = fsFiles :=
    absurd (Prod.mk.inj (Option.some.inj hcode)).1.symm hstatus
  unfold sysWriteFile at h
  split at h
  swap
  · exact hsame h
  split at h
  · exact hsame h
  split at h
  · cases h
  split at h
  · exact hsame h
  split at h
  · exact hsame h
  split at h
  · cases h
  · exact hdone h
  · split at h
    · exact hsame h
    · exact hdone h

/-- A write that succeeds sets the contents of one file. -/
theorem write_succeeded {name contents : List UInt8} (h : (store.write name contents).1 = 0) :
    (store.write name contents).2.files = store.files.insert name contents := by
  unfold Store.write at h ⊢
  split_ifs at h ⊢ with hname hsize hroom
  · rfl
  · change (-4 : ℤ) = 0 at h
    exact absurd h (by decide)
  · change (-3 : ℤ) = 0 at h
    exact absurd h (by decide)
  · change (-2 : ℤ) = 0 at h
    exact absurd h (by decide)

/-- The file can be opened and read whenever there is memory for it. -/
def ReadsBack (fsFiles : FileSystem) (path : CString) (bytes : List UInt8) : Prop :=
  ∀ (mode : CString) (malloc : Malloc), ¬ Writes mode → malloc (maxFileSize + 1) ≠ none →
    ∃ f, fopen fsFiles path mode true malloc = some (some f) ∧ (f.fread 1 bytes.length).2.1 = bytes ∧
      f.Shows (.start bytes)

/-- A status of zero means that the file holds the bytes and nothing else is changed, any other one that nothing is. -/
def Persists (fsFiles : FileSystem) (store : Store) (path : CString) (f : ApeFile) (bytes : List UInt8) : Prop :=
  ∃ status next out, f.fclose fsFiles = some (status, next, out) ∧
    (status = 0 → ReadsBack next path bytes ∧ ∃ after, Represents next after ∧
      after.files.lookup path.bytes = some bytes ∧
      ∀ name ≠ path.bytes, after.files.lookup name = store.files.lookup name) ∧
    (status ≠ 0 → next = fsFiles)

theorem readsBack_of_lookup (h : Represents fsFiles store) (hlength : path.bytes.length < maxFilenameLen)
    {bytes : List UInt8} (hlookup : store.files.lookup path.bytes = some bytes) : ReadsBack fsFiles path bytes := by
  intro mode malloc hmode hmalloc
  obtain ⟨block, hblock⟩ := Option.ne_none_iff_exists'.mp hmalloc
  rcases fopen_reading h hlength hblock hmode with ⟨hnone, -⟩ | ⟨contents, f, hcontents, hopen, hshows, -⟩
  · rw [hlookup] at hnone
    cases hnone
  · obtain rfl : bytes = contents := Option.some.inj (hlookup.symm.trans hcontents)
    refine ⟨f, hopen, ?_, hshows⟩
    have hrest : (Cursor.start bytes).rest = bytes := List.drop_zero
    rw [hshows.fread_eq 1 bytes.length (by rw [hrest, Nat.div_one, Nat.min_self]), hrest, Nat.one_mul]
    exact List.take_length

/-! ## Closing -/

/-- What is known of a stream for writing until it is closed. -/
structure Writing (path : CString) (f : ApeFile) (v : Cursor UInt8) : Prop where
  shows : f.Shows v
  writable : f.writable = true
  out : f.out = none
  name : f.name = Memory.ofList path.buffer

theorem Writing.calls (h : Writing path f v) (calls : List Call) :
    ∃ w, Allowed (Permits true) v calls (answers ApeFile.call f calls).1 w ∧
      Writing path (answers ApeFile.call f calls).2 w := by
  obtain ⟨w, hallowed, hshows, hkept⟩ := h.shows.calls calls
  rw [h.writable] at hallowed
  refine ⟨w, hallowed, hshows, hkept.writable.trans h.writable, ?_, hkept.name.trans h.name⟩
  rw [← Option.not_isSome_iff_eq_none, hkept.out, h.out]
  decide

/-- With an empty path nothing is written. -/
theorem Writing.fclose_empty (h : Writing path f v) (hpath : path.bytes = []) :
    f.fclose fsFiles = some (0, fsFiles, none) := by
  have hzero : ¬ (f.fflush.name 0 ≠ 0 ∧ f.fflush.writable = true) := by
    rintro ⟨hnamed, -⟩
    refine hnamed ((congrFun h.name 0).trans (ofList_buffer path ?_))
    rw [hpath]
    exact Nat.zero_le _
  have hout : f.fflush.out = none := by
    rw [ApeFile.fflush, h.out]
    rfl
  rw [ApeFile.fclose, if_neg hzero, hout]

/-- With another path the file system is asked to store the bytes. -/
theorem Writing.fclose_named (h : Writing path f v) (hrepresents : Represents fsFiles store)
    (hlength : path.bytes.length < maxFilenameLen) (hpath : path.bytes ≠ []) :
    ∃ next, f.fclose fsFiles = some ((store.write path.bytes v.items).1, next, none) ∧
      Represents next (store.write path.bytes v.items).2 ∧
      ((store.write path.bytes v.items).1 ≠ 0 → next = fsFiles) := by
  have hnamed : f.fflush.name 0 ≠ 0 ∧ f.fflush.writable = true := by
    refine ⟨?_, h.writable⟩
    have hfirst := ofList_buffer_of_lt path (List.length_pos_iff.mpr hpath)
    rw [ApeFile.fflush, h.name, hfirst]
    exact path.nonzero _ (List.getElem_mem _)
  obtain ⟨next, hwrite, hnext⟩ := hrepresents.sysWriteFile (strlen_path path hlength) f.data
    (Int.natCast_nonneg f.size)
  rw [text_path path hlength, Int.toNat_natCast, h.shows.contents] at hwrite hnext
  have hout : f.fflush.out = none := by
    rw [ApeFile.fflush, h.out]
    rfl
  refine ⟨next, ?_, hnext, sysWriteFile_failed hwrite⟩
  rw [ApeFile.fclose, if_pos hnamed, hout]
  change (sysWriteFile fsFiles (some f.name) maxFilenameLen (some f.data) f.size).map _ = _
  rw [h.name, hwrite]
  rfl

/-- No file has an empty name. -/
theorem not_persists_of_empty {next : FileSystem} {out : Option (Memory × ℕ)} {bytes : List UInt8}
    (hpath : path.bytes = []) (hclose : f.fclose fsFiles = some (0, next, out)) :
    ¬ Persists fsFiles store path f bytes := by
  rintro ⟨status, other, place, hclose', hzero, -⟩
  obtain ⟨rfl, -⟩ := Prod.mk.inj (Option.some.inj (hclose'.symm.trans hclose))
  obtain ⟨-, after, -, hlookup, -⟩ := hzero rfl
  exact (after.names _ (Finmap.mem_of_lookup_eq_some hlookup)).1 hpath

/-- The bytes persist exactly if the path is not empty. -/
theorem Writing.persists_iff (h : Writing path f v) (hrepresents : Represents fsFiles store)
    (hlength : path.bytes.length < maxFilenameLen) :
    Persists fsFiles store path f v.items ↔ path.bytes ≠ [] := by
  constructor
  · exact fun hpersists hpath ↦ not_persists_of_empty hpath (h.fclose_empty hpath) hpersists
  · intro hpath
    obtain ⟨next, hclose, hnext, hfailed⟩ := h.fclose_named hrepresents hlength hpath
    refine ⟨_, next, none, hclose, fun hstatus ↦ ?_, hfailed⟩
    have hfiles := write_succeeded hstatus
    have hlookup : (store.write path.bytes v.items).2.files.lookup path.bytes = some v.items := by
      rw [hfiles, Finmap.lookup_insert]
    refine ⟨readsBack_of_lookup hnext hlength hlookup, _, hnext, hlookup, fun name hname ↦ ?_⟩
    rw [hfiles, Finmap.lookup_insert_of_ne _ hname]

/-- After any calls on a stream opened for writing, its bytes persist exactly if its path is not empty. -/
theorem fopen_persists_iff {before : FileSystem} {granted : Bool} {malloc : Malloc}
    (hopen : fopen before path mode granted malloc = some (some f)) (hmode : Writes mode) (calls : List Call)
    (hrepresents : Represents fsFiles store) :
    ∃ v, Allowed (Permits true) (.start []) calls (answers ApeFile.call f calls).1 v ∧
      (Persists fsFiles store path (answers ApeFile.call f calls).2 v.items ↔ path.bytes ≠ []) := by
  by_cases hrefused : maxFilenameLen ≤ path.bytes.length ∨ granted = false ∨ malloc (maxFileSize + 1) = none
  · rw [fopen_of_refused hrefused] at hopen
    cases hopen
  rw [not_or, not_or, Nat.not_le, Bool.not_eq_false] at hrefused
  obtain ⟨hlength, rfl, hmalloc⟩ := hrefused
  obtain ⟨block, hblock⟩ := Option.ne_none_iff_exists'.mp hmalloc
  obtain ⟨g, hg, hshows, hwritable, hout, hname⟩ := fopen_writing before hlength hblock hmode
  obtain rfl : g = f := Option.some.inj (Option.some.inj (hg.symm.trans hopen))
  obtain ⟨v, hallowed, hwriting⟩ := Writing.calls ⟨hshows, hwritable, hout, hname⟩ calls
  exact ⟨v, hallowed, hwriting.persists_iff hrepresents hlength⟩

/-! ### A named stream and one without a name -/

def cleared : FileSystem := fsInit fun _ ↦ ⟨Memory.zero, Memory.zero, 0, false⟩

def modeW : CString := ⟨['w'.toUInt8], by decide⟩

def oneByte : Items := ⟨1, 1, [65], rfl, by decide⟩

/-- The byte written to the file `a` persists. -/
theorem fopen_persists_named :
    ∃ f, fopen cleared ⟨[97], by decide⟩ modeW true generous = some (some f) ∧
      ∃ v, Persists cleared Store.empty ⟨[97], by decide⟩ (answers ApeFile.call f [.fwrite oneByte generous]).2 v := by
  let path : CString := ⟨[97], by decide⟩
  have hlength : path.bytes.length < maxFilenameLen := by decide
  have hmode : Writes modeW := rfl
  have hmalloc : generous (maxFileSize + 1) = some ⟨Memory.zero, maxFileSize + 1, Nat.le_refl _, by decide⟩ := rfl
  obtain ⟨f, hopen, -⟩ := fopen_writing cleared hlength hmalloc hmode
  obtain ⟨v, -, hpersists⟩ := fopen_persists_iff hopen hmode [.fwrite oneByte generous] (represents_fsInit _)
  exact ⟨f, hopen, v.items, hpersists.mpr (List.cons_ne_nil _ _)⟩

/-- The byte written to the stream with the empty path is lost: `fclose` returns zero and there is no file. -/
theorem fclose_losesUnnamed :
    ∃ f, fopen cleared ⟨[], by decide⟩ modeW true generous = some (some f) ∧
      (f.fwrite generous oneByte).1 = 1 ∧ (f.fwrite generous oneByte).2.fclose cleared = some (0, cleared, none) ∧
      ¬ Persists cleared Store.empty ⟨[], by decide⟩ (f.fwrite generous oneByte).2 [65] :=
  ⟨_, rfl, rfl, rfl, not_persists_of_empty rfl rfl⟩

end JordyOS.Ape
