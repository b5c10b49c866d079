import JordyOS.Ape.Stream
import JordyOS.Machine.Simulation

/-!
# Streams as byte vectors

A stream is a vector of bytes with a cursor.  Each call does to the stream what it does to the vector; a write is
refused when the stream is read-only, when an item has no bytes, or when there is no memory.
-/

namespace JordyOS.Ape

open Machine Files

/-! ## Calls -/

inductive Call
  | fwrite (items : Items) (malloc : Malloc)
  | fread (size count : ℕ)
  | fseek (offset : Int64) (origin : ℤ)
  | rewind
  | ftell
  | fgets (size : ℤ)
  | fflush

inductive Answer
  | count (n : ℕ)
  | read (count : ℕ) (bytes : List UInt8)
  | status (n : ℤ)
  | position (n : ℕ)
  /-- Whether there is a line, and what is written to the buffer. -/
  | line (found : Bool) (bytes : List UInt8)
  | done

def ApeFile.call (f : ApeFile) : Call → Answer × ApeFile
  | .fwrite items malloc =>
    let (count, f) := f.fwrite malloc items
    (.count count, f)
  | .fread size count =>
    let (count, bytes, f) := f.fread size count
    (.read count bytes, f)
  | .fseek offset origin =>
    let (status, f) := f.fseek offset origin
    (.status status, f)
  | .rewind => (.done, f.rewind)
  | .ftell => (.position f.ftell, f)
  | .fgets size =>
    let (found, bytes, f) := f.fgets size
    (.line found bytes, f)
  | .fflush => (.status 0, f.fflush)

/-! ## The vector -/

/-- What the offset of `fseek` counts from. -/
def origins (v : Cursor UInt8) (origin : ℤ) : ℕ :=
  if origin = seekSet then 0 else if origin = seekCur then v.pos else v.items.length

/-- The answers of the vector. -/
inductive Permits (writable : Bool) : Cursor UInt8 → Call → Answer → Cursor UInt8 → Prop
  | written {v items malloc} : writable = true → items.size ≠ 0 →
      Permits writable v (.fwrite items malloc) (.count items.count) (v.write items.bytes)
  | refused {v items malloc} :
      writable = false ∨ items.size = 0 ∨ malloc ((v.pos + items.bytes.length + 1) * 2) = none →
        Permits writable v (.fwrite items malloc) (.count 0) v
  /-- As many whole items as there are. -/
  | read {v size count n} : n = min count (v.rest.length / size) →
      Permits writable v (.fread size count) (.read n (v.rest.take (size * n))) (v.skip (size * n))
  | sought {v w offset origin} : v.seek (origins v origin + offset.toInt) = some w →
      Permits writable v (.fseek offset origin) (.status 0) w
  | outside {v offset origin} : v.seek (origins v origin + offset.toInt) = none →
      Permits writable v (.fseek offset origin) (.status (-1)) v
  | rewound {v} : Permits writable v .rewind .done (.start v.items)
  | told {v} : Permits writable v .ftell (.position v.pos) v
  | noRoom {v size} : size < 2 → Permits writable v (.fgets size) (.line false []) v
  /-- The first line, as far as there is room for it. -/
  | got {v size line} : ¬ size < 2 → line = Cursor.firstLine newline (v.rest.take (size - 1).toNat) →
      Permits writable v (.fgets size) (.line (line ≠ []) (line ++ [0])) (v.skip line.length)
  | flushed {v} : Permits writable v .fflush (.status 0) v

/-- The stream shows the vector. -/
structure ApeFile.Shows (f : ApeFile) (v : Cursor UInt8) : Prop where
  contents : f.data.bytes f.size = v.items
  pos : f.pos = v.pos
  terminated : f.data f.size = 0
  room : f.size < f.capacity ∧ f.capacity ≤ f.room
  within : f.room ≤ arenaSize - headerSize

variable {f : ApeFile} {v : Cursor UInt8} {malloc : Malloc}

theorem ApeFile.Shows.size (h : f.Shows v) : f.size = v.items.length := by
  rw [← h.contents, Memory.length_bytes]

theorem ApeFile.Shows.pos_le (h : f.Shows v) : f.pos ≤ f.size := by
  rw [h.pos, h.size]
  exact v.inside

theorem ApeFile.Shows.size_lt (h : f.Shows v) : f.size < arenaSize := by
  have hroom := h.room
  have hwithin := h.within
  unfold arenaSize headerSize at *
  omega

theorem getElem?_bytes (memory : Memory) (size i : ℕ) :
    (memory.bytes size)[i]? = if i < size then some (memory i) else none := by
  rw [Memory.bytes, List.getElem?_map]
  by_cases h : i < size
  · rw [if_pos h, List.getElem?_range h, Option.map_some]
  · rw [if_neg h, List.getElem?_eq_none (by rw [List.length_range]; omega), Option.map_none]

/-- What is behind the cursor. -/
theorem ApeFile.Shows.rest (h : f.Shows v) : (f.data.shift f.pos).bytes (f.size - f.pos) = v.rest := by
  refine List.ext_getElem? fun i ↦ ?_
  rw [Cursor.rest, List.getElem?_drop, ← h.contents, ← h.pos, getElem?_bytes, getElem?_bytes, Memory.shift_apply]
  exact if_congr (by omega) rfl rfl

theorem bytes_take (memory : Memory) {n size : ℕ} (h : n ≤ size) : (memory.bytes size).take n = memory.bytes n := by
  rw [Memory.bytes, Memory.bytes, ← List.map_take, List.take_range, Nat.min_eq_left h]

/-! ## Reading -/

/-- The cursor is moved over `n` bytes that are there. -/
theorem ApeFile.Shows.skip (h : f.Shows v) {n : ℕ} (hn : n ≤ f.size - f.pos) :
    ({ f with pos := f.pos + n } : ApeFile).Shows (v.skip n) := by
  refine ⟨h.contents, ?_, h.terminated, h.room, h.within⟩
  rw [Cursor.skip_of_le (by rw [Cursor.length_rest, ← h.size, ← h.pos]; exact hn), ← h.pos]

theorem ApeFile.Shows.length_rest (h : f.Shows v) : v.rest.length = f.size - f.pos := by
  rw [← h.rest, Memory.length_bytes]

/-- As many whole items are read as there are. -/
theorem ApeFile.Shows.fread_eq (h : f.Shows v) (size count : ℕ) {n : ℕ} (hn : n = min count (v.rest.length / size)) :
    f.fread size count = (n, v.rest.take (size * n), { f with pos := f.pos + size * n }) := by
  rw [h.length_rest] at hn
  by_cases hsize : size = 0
  · subst hsize
    rw [Nat.div_zero, Nat.min_zero] at hn
    rw [ApeFile.fread, if_pos rfl, hn, Nat.mul_zero, List.take_zero]
    rfl
  · have hcount : (if count > (f.size - f.pos) / size then (f.size - f.pos) / size else count) = n := by
      split <;> omega
    have hle : size * n ≤ f.size - f.pos :=
      calc
        size * n ≤ size * ((f.size - f.pos) / size) := Nat.mul_le_mul_left _ (hn.trans_le (Nat.min_le_right _ _))
        _ ≤ f.size - f.pos := Nat.mul_div_le _ _
    rw [ApeFile.fread, if_neg hsize, hcount, ← h.rest, bytes_take _ hle]

theorem ApeFile.Shows.fread (h : f.Shows v) (writable : Bool) (size count : ℕ) :
    ∃ w, Permits writable v (.fread size count) (f.call (.fread size count)).1 w ∧
      (f.call (.fread size count)).2.Shows w := by
  obtain ⟨n, hn⟩ : ∃ n, n = min count (v.rest.length / size) := ⟨_, rfl⟩
  have hle : size * n ≤ f.size - f.pos := by
    rw [← h.length_rest]
    calc
      size * n ≤ size * (v.rest.length / size) := Nat.mul_le_mul_left _ (hn.trans_le (Nat.min_le_right _ _))
      _ ≤ v.rest.length := Nat.mul_div_le _ _
  refine ⟨v.skip (size * n), ?_, ?_⟩
  · rw [ApeFile.call, h.fread_eq size count hn]
    exact .read hn
  · rw [ApeFile.call, h.fread_eq size count hn]
    exact h.skip hle

/-- The byte at the cursor comes first. -/
theorem ApeFile.Shows.rest_cons (h : f.Shows v) (hpos : f.pos < f.size) :
    v.rest = f.data f.pos :: (v.skip 1).rest := by
  have hone : min 1 v.rest.length = 1 := by
    rw [h.length_rest]
    omega
  have hlt : v.pos < v.items.length := by
    rw [← h.pos, ← h.size]
    exact hpos
  have hbyte : v.items[v.pos] = f.data f.pos := by
    have hbytes := getElem?_bytes f.data f.size f.pos
    rw [h.contents, if_pos hpos, h.pos, List.getElem?_eq_getElem hlt, Option.some.injEq] at hbytes
    rw [hbytes, h.pos]
  have hskip : (v.skip 1).rest = v.items.drop (v.pos + 1) := congrArg (fun n ↦ v.items.drop (v.pos + n)) hone
  rw [hskip, Cursor.rest, List.drop_eq_getElem_cons hlt, hbyte]

/-- What the loop of `fgets` reads. -/
theorem ApeFile.Shows.fgetsLoop (h : f.Shows v) (left : ℕ) :
    f.fgetsLoop left = (Cursor.firstLine newline (v.rest.take left),
      { f with pos := f.pos + (Cursor.firstLine newline (v.rest.take left)).length }) := by
  induction left generalizing f v with
  | zero =>
    rw [ApeFile.fgetsLoop, List.take_zero]
    rfl
  | succ left ih =>
    rw [ApeFile.fgetsLoop]
    by_cases hpos : f.pos < f.size
    · rw [if_pos hpos, h.rest_cons hpos, List.take_succ_cons, Cursor.firstLine_cons]
      dsimp only
      by_cases hnewline : f.data f.pos = newline
      · rw [if_pos hnewline, if_pos hnewline]
        rfl
      · have hskip := h.skip (by omega : 1 ≤ f.size - f.pos)
        rw [if_neg hnewline, if_neg hnewline, ih hskip, List.length_cons, Nat.add_assoc, Nat.add_comm 1]
    · have hrest : v.rest = [] := by
        rw [← List.length_eq_zero_iff, h.length_rest]
        omega
      rw [if_neg hpos, hrest, List.take_nil, Cursor.firstLine_nil]
      rfl

theorem ApeFile.Shows.fgets (h : f.Shows v) (writable : Bool) (size : ℤ) :
    ∃ w, Permits writable v (.fgets size) (f.call (.fgets size)).1 w ∧ (f.call (.fgets size)).2.Shows w := by
  rw [ApeFile.call, ApeFile.fgets]
  by_cases hsize : size < 2
  · rw [if_pos hsize]
    exact ⟨v, .noRoom hsize, h⟩
  · rw [if_neg hsize, h.fgetsLoop]
    refine ⟨_, .got hsize rfl, h.skip ?_⟩
    rw [← h.length_rest]
    calc
      (Cursor.firstLine newline (v.rest.take (size - 1).toNat)).length ≤ (v.rest.take (size - 1).toNat).length :=
        Cursor.length_firstLine_le _ _
      _ ≤ v.rest.length := (List.take_sublist _ _).length_le

/-! ## Seeking -/

theorem ApeFile.Shows.fseek (h : f.Shows v) (writable : Bool) (offset : Int64) (origin : ℤ) :
    ∃ w, Permits writable v (.fseek offset origin) (f.call (.fseek offset origin)).1 w ∧
      (f.call (.fseek offset origin)).2.Shows w := by
  have hbase : (if origin = seekSet then 0 else if origin = seekCur then f.pos else f.size) = origins v origin := by
    rw [origins, h.pos, h.size]
  have hsmall : origins v origin ≤ f.size := by
    have hpos := h.pos_le
    rw [← hbase]
    split
    · exact Nat.zero_le _
    · split <;> omega
  have hlt := h.size_lt
  have hlow := offset.le_toInt
  have hhigh := offset.toInt_lt
  have hsize := h.size
  unfold arenaSize at hlt
  rw [ApeFile.call, ApeFile.fseek, hbase]
  dsimp only
  by_cases hinside : 0 ≤ origins v origin + offset.toInt ∧ origins v origin + offset.toInt ≤ v.items.length
  · have hbmod : Int.bmod (origins v origin + offset.toInt) (2 ^ 64) = origins v origin + offset.toInt := by
      rw [Int.bmod_def]
      omega
    rw [hbmod, if_neg (by omega)]
    refine ⟨_, .sought (Cursor.seek_of_inside hinside), h.contents, rfl, h.terminated, h.room, h.within⟩
  · have houtside : Int.bmod (origins v origin + offset.toInt) (2 ^ 64) < 0 ∨
        (Int.bmod (origins v origin + offset.toInt) (2 ^ 64)).toNat > f.size := by
      rw [Int.bmod_def]
      omega
    rw [if_pos houtside]
    exact ⟨v, .outside (Cursor.seek_of_outside hinside), h⟩

/-! ## Writing -/

theorem copy_front (target source : Memory) {size i : ℕ} (hi : i < size) : target.copy 0 source size i = source i := by
  rw [Memory.copy, if_pos (by omega), Nat.sub_zero]

/-- A stream that grows shows what it showed; it stays as it is when there is no memory. -/
theorem ApeFile.Shows.grow (h : f.Shows v) (malloc : Malloc) {n : ℕ} (hn : n < 2 ^ 47) :
    (f.grow malloc n = none ∧ malloc ((v.pos + n + 1) * 2) = none) ∨
    ∃ g, f.grow malloc n = some g ∧ g.Shows v ∧ g.pos + n < g.capacity ∧ g.writable = f.writable ∧ g.out = f.out ∧
      g.name = f.name := by
  have hpos := h.pos_le
  have hsize := h.size_lt
  have hroom := h.room
  unfold arenaSize at hsize
  rw [ApeFile.grow, ← h.pos]
  by_cases hgrows : f.pos + n + 1 > f.capacity
  swap
  · rw [if_neg hgrows]
    exact .inr ⟨f, rfl, h, by omega, rfl, rfl, rfl⟩
  have hcap : (f.pos + n + 1) * 2 % 2 ^ 64 = (f.pos + n + 1) * 2 := Nat.mod_eq_of_lt (by omega)
  rw [if_pos hgrows, hcap]
  dsimp only
  unfold regrant
  rw [if_neg (by omega)]
  by_cases hkeeps : f.room ≥ (f.pos + n + 1) * 2
  · rw [if_pos hkeeps]
    exact .inr ⟨_, rfl, ⟨h.contents, h.pos, h.terminated, ⟨by dsimp only; omega, hkeeps⟩, h.within⟩,
      by dsimp only; omega, rfl, rfl, rfl⟩
  rw [if_neg hkeeps]
  cases hmalloc : malloc ((f.pos + n + 1) * 2) with
  | none => exact .inl ⟨rfl, rfl⟩
  | some block =>
    have hold (i : ℕ) (hi : i < f.room) : block.memory.copy 0 f.data f.room i = f.data i :=
      copy_front block.memory f.data hi
    refine .inr ⟨_, rfl, ⟨?_, h.pos, ?_, ⟨by dsimp only; omega, block.enough⟩, block.within⟩, by dsimp only; omega,
      rfl, rfl, rfl⟩
    · rw [← h.contents]
      exact Memory.bytes_eq_bytes_iff.mpr ⟨rfl, fun i hi ↦ hold i (by dsimp only at hi; omega)⟩
    · rw [← h.terminated]
      exact hold f.size (by omega)

/-- The bytes are put behind the cursor, and a zero behind all bytes. -/
theorem ApeFile.Shows.store (h : f.Shows v) {bytes : List UInt8} {size : ℕ}
    (hsize : size = max f.size (f.pos + bytes.length)) (hroom : f.pos + bytes.length < f.capacity) :
    ({ f with
      data := (f.data.copy f.pos (Memory.ofList bytes) bytes.length).set size 0
      pos := f.pos + bytes.length, size := size } : ApeFile).Shows (v.write bytes) := by
  have hold := h.room
  have hpos := h.pos_le
  have hfits : size < f.capacity := by omega
  refine ⟨List.ext_getElem? fun i ↦ ?_, congrArg (· + bytes.length) h.pos, Memory.set_self _ _ _, ⟨hfits, hold.2⟩,
    h.within⟩
  rw [Cursor.getElem?_write, getElem?_bytes, ← h.pos]
  dsimp only
  by_cases hwritten : f.pos ≤ i ∧ i < f.pos + bytes.length
  · have hinside : i - f.pos < bytes.length := by omega
    have hi : i < size := by omega
    rw [if_pos hwritten, if_pos hi, Memory.set_of_ne _ _ hi.ne, List.getElem?_eq_getElem hinside, Memory.copy,
      if_pos hwritten, Memory.ofList, List.getD_eq_getElem _ _ hinside]
  · rw [if_neg hwritten, ← h.contents, getElem?_bytes]
    by_cases hi : i < f.size
    · have hi' : i < size := by omega
      rw [if_pos hi, if_pos hi', Memory.set_of_ne _ _ hi'.ne, Memory.copy, if_neg hwritten]
    · rw [if_neg hi, if_neg (by omega)]

/-- A write is done, or it is refused for one of three reasons and changes nothing. -/
theorem ApeFile.Shows.fwrite_cases (h : f.Shows v) (malloc : Malloc) (ptr : Items) :
    ((f.writable = false ∨ ptr.size = 0 ∨ malloc ((v.pos + ptr.bytes.length + 1) * 2) = none) ∧
      f.fwrite malloc ptr = (0, f)) ∨
    (f.writable = true ∧ ptr.size ≠ 0 ∧ ∃ g : ApeFile,
      f.fwrite malloc ptr = (ptr.count, g) ∧ g.Shows (v.write ptr.bytes) ∧
        g.writable = f.writable ∧ g.out = f.out ∧ g.name = f.name) := by
  have hpos := h.pos_le
  have hlt := h.size_lt
  unfold arenaSize at hlt
  rw [ApeFile.fwrite]
  by_cases hsize : ptr.size = 0
  · rw [if_pos (.inl hsize)]
    exact .inl ⟨.inr (.inl hsize), rfl⟩
  by_cases hwritable : f.writable = true
  swap
  · rw [Bool.not_eq_true] at hwritable
    rw [if_pos (.inr (.inr (by rw [hwritable]; rfl)))]
    exact .inl ⟨.inl hwritable, rfl⟩
  have hbytes := ptr.length_bytes
  have hwithin := ptr.within
  have hcount : ¬ ptr.count > (2 ^ 64 - 1 - f.pos - 1) / ptr.size := by
    rw [not_lt, Nat.le_div_iff_mul_le (Nat.pos_of_ne_zero hsize), Nat.mul_comm, ← hbytes]
    omega
  rw [if_neg (not_or.mpr ⟨hsize, not_or.mpr ⟨hcount, by rw [hwritable]; decide⟩⟩), ← hbytes]
  rcases h.grow malloc hwithin with ⟨hnone, hmalloc⟩ | ⟨g, hgrow, hg, hroom, hwritable', hout, hname⟩
  · dsimp only
    rw [hnone]
    exact .inl ⟨.inr (.inr hmalloc), rfl⟩
  · dsimp only
    rw [hgrow]
    have hmax : (if g.pos + ptr.bytes.length > g.size then g.pos + ptr.bytes.length else g.size) =
        max g.size (g.pos + ptr.bytes.length) := by
      split <;> omega
    dsimp only
    rw [hmax]
    exact .inr ⟨hwritable, hsize, _, rfl, hg.store rfl hroom, hwritable', hout, hname⟩

/-! ## Runs -/

/-- What no call on a stream changes. -/
structure SameStream (f g : ApeFile) : Prop where
  writable : g.writable = f.writable
  name : g.name = f.name
  out : g.out.isSome = f.out.isSome

/-- A call does to the stream what it does to the vector. -/
theorem ApeFile.Shows.call (h : f.Shows v) (c : Call) :
    ∃ w, Permits f.writable v c (f.call c).1 w ∧ (f.call c).2.Shows w ∧ SameStream f (f.call c).2 := by
  cases c with
  | fwrite items malloc =>
    rcases h.fwrite_cases malloc items with ⟨hrefused, hcall⟩ | ⟨hwritable, hsize, g, hcall, hg, hkept⟩
    · rw [ApeFile.call, hcall]
      exact ⟨v, .refused hrefused, h, rfl, rfl, rfl⟩
    · rw [ApeFile.call, hcall]
      exact ⟨_, .written hwritable hsize, hg, hkept.1, hkept.2.2, congrArg _ hkept.2.1⟩
  | fread size count =>
    obtain ⟨w, hpermits, hshows⟩ := h.fread f.writable size count
    refine ⟨w, hpermits, hshows, ?_⟩
    rw [ApeFile.call, h.fread_eq size count rfl]
    exact ⟨rfl, rfl, rfl⟩
  | fseek offset origin =>
    obtain ⟨w, hpermits, hshows⟩ := h.fseek f.writable offset origin
    refine ⟨w, hpermits, hshows, ?_⟩
    rw [ApeFile.call, ApeFile.fseek]
    dsimp only
    split_ifs <;> exact ⟨rfl, rfl, rfl⟩
  | rewind => exact ⟨_, .rewound, ⟨h.contents, rfl, h.terminated, h.room, h.within⟩, rfl, rfl, rfl⟩
  | ftell =>
    refine ⟨v, ?_, h, rfl, rfl, rfl⟩
    rw [ApeFile.call, ApeFile.ftell, h.pos]
    exact .told
  | fgets size =>
    obtain ⟨w, hpermits, hshows⟩ := h.fgets f.writable size
    refine ⟨w, hpermits, hshows, ?_⟩
    rw [ApeFile.call, ApeFile.fgets, h.fgetsLoop]
    by_cases hsize : size < 2
    · rw [if_pos hsize]
      exact ⟨rfl, rfl, rfl⟩
    · rw [if_neg hsize]
      exact ⟨rfl, rfl, rfl⟩
  | fflush => exact ⟨v, .flushed, ⟨h.contents, h.pos, h.terminated, h.room, h.within⟩, rfl, rfl, Option.isSome_map⟩

/-- So does every sequence of calls. -/
theorem ApeFile.Shows.calls (h : f.Shows v) (calls : List Call) :
    ∃ w, Allowed (Permits f.writable) v calls (answers ApeFile.call f calls).1 w ∧
      (answers ApeFile.call f calls).2.Shows w ∧ SameStream f (answers ApeFile.call f calls).2 := by
  have hsimulates : Simulates ApeFile.call (Permits f.writable) fun g w ↦ g.Shows w ∧ SameStream f g := by
    rintro g w c ⟨hg, hkept⟩
    obtain ⟨w', hpermits, hnext, hkept'⟩ := hg.call c
    rw [hkept.writable] at hpermits
    exact ⟨w', hpermits, hnext, hkept'.writable.trans hkept.writable, hkept'.name.trans hkept.name,
      hkept'.out.trans hkept.out⟩
  exact hsimulates.answers calls ⟨h, rfl, rfl, rfl⟩

end JordyOS.Ape
