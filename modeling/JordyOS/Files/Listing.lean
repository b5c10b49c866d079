import JordyOS.Files.Store
import JordyOS.Machine.Buffer
import JordyOS.Machine.Joined

/-!
# Listing the files

`sys_list_files` writes the names in use to a buffer, in slot order and joined by newlines, as long as they
fit.  It writes a separator before it knows that the next name fits, so a list that is cut behind its first
name can end with one.
-/

namespace JordyOS.Files

open Machine

/-! ## The code -/

def newline : UInt8 := 10

/-- The slots that are still to be listed; the result is `cp` and the buffer. -/
def listLoop (fsFiles : FileSystem) (bl : ℕ) :
    List ℕ → (ob : Memory) → (cp : ℕ) → (ff : Bool) → Option (ℕ × Memory)
  | [], ob, cp, _ => some (cp, ob)
  | i :: rest, ob, cp, ff =>
    if (fsFiles i).inUse then
      if ff = false ∧ ¬ cp < bl - 1 then some (cp, ob)
      else
        let (ob, cp) := if ff then (ob, cp) else (ob.set cp newline, cp + 1)
        match (fsFiles i).name.strlen maxFilenameLen with
        | none => none
        | some nl =>
          if cp + nl < bl then
            -- `strcpy` takes the terminator along
            listLoop fsFiles bl rest (ob.copy cp (fsFiles i).name (nl + 1)) (cp + nl) false
          else some (cp, ob)
    else listLoop fsFiles bl rest ob cp ff

def sysListFiles (fsFiles : FileSystem) (ob : Option Memory) (bl : ℤ) : Option (ℤ × Option Memory) :=
  match ob with
  | none => some (-1, none)
  | some ob =>
    if bl ≤ 0 then some (-1, some ob)
    else
      (listLoop fsFiles bl.toNat (List.range maxFiles) (ob.copy 0 Memory.zero bl.toNat) 0 true).map
        fun (cp, ob) ↦ (cp, some ob)

/-! ## What a list is -/

/-- The names in use, in the order of the given slots. -/
def names (fsFiles : FileSystem) (slots : List ℕ) : List (List UInt8) :=
  slots.filterMap fun i ↦ (fsFiles i).entry.map Prod.fst

/-- A string of `t` has been written to the first `bl` bytes, the rest of which is clear. -/
structure Holds (before : Memory) (bl : ℕ) (t : List UInt8) (out : Memory) : Prop where
  room : t.length < bl
  inside : ∀ i < bl, out i = Memory.ofList t i
  outside : ∀ i, bl ≤ i → out i = before i
  nonzero : ∀ byte ∈ t, byte ≠ 0

variable {before out : Memory} {bl n : ℕ} {t : List UInt8}

namespace Holds

theorem strlen (h : Holds before bl t out) : out.strlen bl = some t.length := by
  refine Memory.terminator_eq_some.mpr ⟨?_, h.room, fun i hi ↦ ?_⟩
  · rw [h.inside _ h.room, Memory.ofList_of_le (Nat.le_refl _)]
  · rw [h.inside i (hi.trans h.room), Memory.ofList_eq_getElem hi]
    exact h.nonzero _ (List.getElem_mem hi)

theorem bytes (h : Holds before bl t out) : out.bytes t.length = t := by
  refine List.ext_getElem (by rw [Memory.length_bytes]) fun i hi ht ↦ ?_
  simp only [Memory.bytes, List.getElem_map, List.getElem_range]
  rw [h.inside i (ht.trans h.room), Memory.ofList_eq_getElem ht]

/-- The separator is written. -/
theorem newline (h : Holds before bl t out) (hroom : t.length + 1 < bl) :
    Holds before bl (t ++ [newline]) (out.set t.length newline) where
  room := by
    rw [List.length_append]
    exact hroom
  inside := by
    intro i hi
    rw [Memory.ofList_append]
    by_cases hnew : i = t.length
    · rw [hnew, Memory.set_self, if_neg (Nat.lt_irrefl _), Nat.sub_self]
      rfl
    · rw [Memory.set_of_ne _ _ hnew, h.inside i hi]
      by_cases hold : i < t.length
      · rw [if_pos hold]
      · rw [if_neg hold, Memory.ofList_of_le (Nat.le_of_not_lt hold), Memory.ofList_of_le]
        rw [List.length_singleton]
        omega
  outside := by
    intro i hi
    rw [Memory.set_of_ne _ _ (by omega), h.outside i hi]
  nonzero := by
    intro byte hbyte
    rcases List.mem_append.mp hbyte with hbyte | hbyte
    · exact h.nonzero byte hbyte
    · rw [List.mem_singleton.mp hbyte]
      decide

/-- A name is copied with its terminator. -/
theorem name (h : Holds before bl t out) {name : Memory} {nl : ℕ}
    (hname : name.strlen maxFilenameLen = some nl) (hroom : t.length + nl < bl) :
    Holds before bl (t ++ name.bytes nl) (out.copy t.length name (nl + 1)) where
  room := by
    rw [List.length_append, Memory.length_bytes]
    exact hroom
  inside := by
    obtain ⟨hzero, -, -⟩ := Memory.terminator_eq_some.mp hname
    intro i hi
    rw [Memory.ofList_append]
    by_cases hold : i < t.length
    · rw [if_pos hold, Memory.copy_below _ _ hold, h.inside i hi]
    rw [if_neg hold]
    obtain ⟨k, rfl⟩ := Nat.exists_eq_add_of_le (Nat.le_of_not_lt hold)
    rw [Nat.add_sub_cancel_left]
    rcases Nat.lt_trichotomy k nl with hlt | rfl | hgt
    · rw [Memory.copy_inside _ _ (hlt.trans (Nat.lt_succ_self nl)), Memory.ofList_bytes name hlt]
    · rw [Memory.copy_inside _ _ (Nat.lt_succ_self k), hzero, Memory.ofList_of_le (by rw [Memory.length_bytes])]
    · rw [Memory.copy_above _ _ (by omega), h.inside _ hi, Memory.ofList_of_le (Nat.le_add_right _ _),
        Memory.ofList_of_le (by rw [Memory.length_bytes]; omega)]
  outside := by
    intro i hi
    rw [Memory.copy_above _ _ (by omega), h.outside i hi]
  nonzero := by
    obtain ⟨-, -, hbefore⟩ := Memory.terminator_eq_some.mp hname
    intro byte hbyte
    rcases List.mem_append.mp hbyte with hbyte | hbyte
    · exact h.nonzero byte hbyte
    · obtain ⟨i, hi, rfl⟩ := List.mem_map.mp hbyte
      exact hbefore i (List.mem_range.mp hi)

end Holds

/-! ## The cut -/

/-- What is written of the names: as many as fit, and behind them a separator unless nothing is cut, nothing
fits, or the buffer is full. -/
def Cut (parts : List (List UInt8)) (bl : ℕ) (t : List UInt8) : Prop :=
  ∃ k, Longest Files.newline parts (bl - 1) k ∧
    ((t = joined Files.newline (parts.take k) ∧
        (k = parts.length ∨ k = 0 ∨ (joined Files.newline (parts.take k)).length + 1 = bl)) ∨
      (t = joined Files.newline (parts.take k) ++ [Files.newline] ∧ 0 < k ∧ k < parts.length ∧
        (joined Files.newline (parts.take k)).length + 1 < bl))

/-- Where the next of the names is written. -/
theorem joined_next (listed : List (List UInt8)) (part : List UInt8) :
    joined Files.newline (listed ++ [part]) =
      (if listed = [] then [] else joined Files.newline listed ++ [Files.newline]) ++ part := by
  by_cases hlisted : listed = []
  · rw [hlisted, if_pos rfl, List.nil_append, List.nil_append, joined_singleton]
  · rw [if_neg hlisted, joined_concat _ hlisted, List.append_assoc, List.singleton_append]

/-- The names that fit are those listed when the next one does not. -/
theorem longest_of_full {listed : List (List UInt8)} (rest : List (List UInt8)) {part : List UInt8}
    (hroom : (joined Files.newline listed).length < bl)
    (hfull : bl ≤ (joined Files.newline (listed ++ [part])).length) :
    Longest Files.newline (listed ++ part :: rest) (bl - 1) listed.length ∧
      (listed ++ part :: rest).take listed.length = listed := by
  have htake : (listed ++ part :: rest).take listed.length = listed := List.take_left
  have hnext : (listed ++ part :: rest).take (listed.length + 1) = listed ++ [part] := by
    rw [List.take_length_add_append, List.take_succ_cons, List.take_zero]
  refine ⟨Longest.of_next ?_ ?_ fun _ ↦ ?_, htake⟩
  · rw [List.length_append]
    exact Nat.le_add_right _ _
  · rw [htake]
    omega
  · rw [hnext]
    omega

/-- Nothing is cut. -/
theorem Cut.all {listed : List (List UInt8)} (hroom : (joined Files.newline listed).length < bl) :
    Cut listed bl (joined Files.newline listed) := by
  have hall : listed.take listed.length = listed := List.take_length
  refine ⟨listed.length, Longest.of_next (Nat.le_refl _) ?_ ?_, .inl ⟨?_, .inl rfl⟩⟩
  · rw [hall]
    omega
  · omega
  · rw [hall]

/-- A name does not fit, and there is no separator in front of it. -/
theorem Cut.unseparated {listed : List (List UInt8)} (rest : List (List UInt8)) {part : List UInt8}
    (hroom : (joined Files.newline listed).length < bl)
    (hfull : bl ≤ (joined Files.newline (listed ++ [part])).length)
    (hstop : listed = [] ∨ (joined Files.newline listed).length + 1 = bl) :
    Cut (listed ++ part :: rest) bl (joined Files.newline listed) := by
  obtain ⟨hlongest, htake⟩ := longest_of_full rest hroom hfull
  refine ⟨listed.length, hlongest, .inl ⟨?_, .inr ?_⟩⟩
  · rw [htake]
  · rw [htake]
    exact hstop.imp_left List.length_eq_zero_iff.mpr

/-- A name does not fit behind its separator. -/
theorem Cut.separated {listed : List (List UInt8)} (rest : List (List UInt8)) {part : List UInt8}
    (hfull : bl ≤ (joined Files.newline (listed ++ [part])).length) (hlisted : listed ≠ [])
    (hseparator : (joined Files.newline listed).length + 1 < bl) :
    Cut (listed ++ part :: rest) bl (joined Files.newline listed ++ [Files.newline]) := by
  obtain ⟨hlongest, htake⟩ := longest_of_full rest (Nat.lt_of_succ_lt hseparator) hfull
  refine ⟨listed.length, hlongest, .inr ⟨?_, List.length_pos_of_ne_nil hlisted, ?_, ?_⟩⟩
  · rw [htake]
  · rw [List.length_append, List.length_cons]
    omega
  · rw [htake]
    exact hseparator

variable {fsFiles : FileSystem} {i nl cp : ℕ} {slots : List ℕ}

theorem names_of_inUse (slots : List ℕ) (huse : (fsFiles i).inUse = true)
    (hnl : (fsFiles i).name.strlen maxFilenameLen = some nl) :
    names fsFiles (i :: slots) = (fsFiles i).name.bytes nl :: names fsFiles slots := by
  unfold names
  rw [List.filterMap_cons_some]
  rw [File.entry, if_pos huse, Option.map_some, Memory.text_of_strlen hnl]

theorem names_of_free (huse : (fsFiles i).inUse = false) :
    names fsFiles (i :: slots) = names fsFiles slots := by
  unfold names
  refine List.filterMap_cons_none ?_
  rw [File.entry, huse]
  rfl

/-- A round without a separator. -/
theorem listLoop_first (huse : (fsFiles i).inUse = true)
    (hnl : (fsFiles i).name.strlen maxFilenameLen = some nl) (ob : Memory) :
    listLoop fsFiles bl (i :: slots) ob cp true =
      if cp + nl < bl then
        listLoop fsFiles bl slots (ob.copy cp (fsFiles i).name (nl + 1)) (cp + nl) false
      else some (cp, ob) := by
  rw [listLoop, if_pos huse, if_neg (by simp)]
  simp only [if_true, hnl]

/-- A round with room for a separator. -/
theorem listLoop_later (huse : (fsFiles i).inUse = true)
    (hnl : (fsFiles i).name.strlen maxFilenameLen = some nl) (ob : Memory) (hcp : cp < bl - 1) :
    listLoop fsFiles bl (i :: slots) ob cp false =
      if cp + 1 + nl < bl then
        listLoop fsFiles bl slots ((ob.set cp newline).copy (cp + 1) (fsFiles i).name (nl + 1))
          (cp + 1 + nl) false
      else some (cp + 1, ob.set cp newline) := by
  rw [listLoop, if_pos huse, if_neg (by simp [hcp])]
  simp only [Bool.false_eq_true, if_false, hnl]

/-- From any point of the loop on: the call ends with a string in the buffer, and that string is the cut of
the names listed and those still to come. -/
theorem listLoop_spec (h : Terminated fsFiles) (slots : List ℕ) (hslots : ∀ i ∈ slots, i < maxFiles)
    (listed : List (List UInt8)) (ff : Bool) (hff : ff = true ↔ listed = [])
    (hholds : Holds before bl (joined Files.newline listed) out) :
    ∃ t ob, listLoop fsFiles bl slots out (joined Files.newline listed).length ff = some (t.length, ob) ∧
      Holds before bl t ob ∧ Cut (listed ++ names fsFiles slots) bl t := by
  have hroom := hholds.room
  induction slots generalizing listed out ff with
  | nil =>
    have hnames : listed ++ names fsFiles [] = listed := List.append_nil listed
    rw [hnames]
    exact ⟨_, out, rfl, hholds, Cut.all hroom⟩
  | cons i rest ih =>
    have hrest : ∀ j ∈ rest, j < maxFiles := fun j hj ↦ hslots j (List.mem_cons_of_mem i hj)
    cases huse : (fsFiles i).inUse with
    | false =>
      rw [listLoop, huse, names_of_free huse]
      exact ih hrest listed ff hff hholds hroom
    | true =>
      obtain ⟨nl, hnl⟩ := h i (hslots i List.mem_cons_self) huse
      have hnames := names_of_inUse rest huse hnl
      have hmore : listed ++ names fsFiles (i :: rest) =
          listed ++ [(fsFiles i).name.bytes nl] ++ names fsFiles rest := by
        rw [hnames, List.append_assoc, List.singleton_append]
      -- what the round does with the name, when it stands behind `part`
      have hround {part : List UInt8} {ob : Memory} (hpart : Holds before bl part ob)
          (hnext : joined Files.newline (listed ++ [(fsFiles i).name.bytes nl]) =
            part ++ (fsFiles i).name.bytes nl)
          (hcut : bl ≤ (joined Files.newline (listed ++ [(fsFiles i).name.bytes nl])).length →
            Cut (listed ++ names fsFiles (i :: rest)) bl part) :
          ∃ t ob', (if part.length + nl < bl then
              listLoop fsFiles bl rest (ob.copy part.length (fsFiles i).name (nl + 1)) (part.length + nl) false
            else some (part.length, ob)) = some (t.length, ob') ∧
            Holds before bl t ob' ∧ Cut (listed ++ names fsFiles (i :: rest)) bl t := by
        have hlength : (joined Files.newline (listed ++ [(fsFiles i).name.bytes nl])).length =
            part.length + nl := by
          rw [hnext, List.length_append, Memory.length_bytes]
        by_cases hfits : part.length + nl < bl
        · have hcopied := hpart.name hnl hfits
          rw [← hnext] at hcopied
          have hlater := ih hrest _ false (by simp) hcopied hcopied.room
          rw [hlength, ← hmore] at hlater
          rw [if_pos hfits]
          exact hlater
        · rw [if_neg hfits]
          exact ⟨part, ob, rfl, hpart, hcut (by omega)⟩
      have hnext := joined_next listed ((fsFiles i).name.bytes nl)
      cases ff with
      | true =>
        obtain rfl := hff.mp rfl
        rw [if_pos rfl] at hnext
        rw [listLoop_first huse hnl]
        refine hround hholds hnext fun hfull ↦ ?_
        rw [hnames]
        exact Cut.unseparated (names fsFiles rest) hroom hfull (.inl rfl)
      | false =>
        have hlisted : listed ≠ [] := fun hempty ↦ Bool.false_ne_true (hff.mpr hempty)
        rw [if_neg hlisted] at hnext
        by_cases hseparator : (joined Files.newline listed).length < bl - 1
        · have hwritten := hholds.newline (by omega)
          have hone : (joined Files.newline listed ++ [Files.newline]).length =
              (joined Files.newline listed).length + 1 := List.length_append
          rw [listLoop_later huse hnl out hseparator, ← hone]
          refine hround hwritten hnext fun hfull ↦ ?_
          rw [hnames]
          exact Cut.separated (names fsFiles rest) hfull hlisted (by omega)
        · have hfull : bl ≤ (joined Files.newline (listed ++ [(fsFiles i).name.bytes nl])).length := by
            rw [length_joined_concat _ hlisted]
            omega
          rw [listLoop, if_pos huse, if_pos ⟨rfl, hseparator⟩, hnames]
          exact ⟨_, out, rfl, hholds, Cut.unseparated (names fsFiles rest) hroom hfull (.inr (by omega))⟩

/-! ## Lists that are whole -/

/-- What a call is asked for: a string of whole names, as many as fit, and all of them in a buffer with room
for 16 names of 31 bytes. -/
structure Listed (fsFiles : FileSystem) (before : Memory) (bl n : ℕ) (out : Memory) : Prop where
  count : n ≤ bl - 1
  outside : ∀ i, bl ≤ i → out i = before i
  terminated : out n = 0
  length : out.strlen bl = some n
  text : ∃ k, Longest newline (names fsFiles (List.range maxFiles)) (bl - 1) k ∧
    out.bytes n = joined newline ((names fsFiles (List.range maxFiles)).take k)
  complete : 528 ≤ bl → out.bytes n = joined newline (names fsFiles (List.range maxFiles))

/-- Some names and a separator behind each of them end inside the buffer, and the next name does not. -/
def EndsBehindSeparator (parts : List (List UInt8)) (bl : ℕ) : Prop :=
  ∃ k, 0 < k ∧ k < parts.length ∧ ((parts.take k).map List.length).sum + k < bl ∧
    bl ≤ ((parts.take (k + 1)).map List.length).sum + k

variable {parts : List (List UInt8)}

theorem length_joined_take {k : ℕ} (hpos : 0 < k) (hk : k ≤ parts.length) :
    (joined newline (parts.take k)).length + 1 = ((parts.take k).map List.length).sum + k := by
  have hlength : (parts.take k).length = k := List.length_take_of_le hk
  rw [length_joined newline (List.ne_nil_of_length_pos (by omega)), hlength]

/-- Cut parts end with a separator exactly under that condition. -/
theorem Cut.whole_iff (h : Cut parts bl t) (hbl : 0 < bl) :
    (∃ k, Longest newline parts (bl - 1) k ∧ t = joined newline (parts.take k)) ↔
      ¬ EndsBehindSeparator parts bl := by
  obtain ⟨k, hk, hcases⟩ := h
  have hfits := hk.fits
  constructor
  · rintro ⟨j, hj, ht⟩ ⟨i, hpos, hi, hroom, hfull⟩
    obtain rfl := hj.unique hk
    have hifits := length_joined_take hpos hi.le
    have hinext : (joined newline (parts.take (i + 1))).length + 1 =
        ((parts.take (i + 1)).map List.length).sum + (i + 1) := length_joined_take (Nat.succ_pos i) hi
    -- the cut is behind the first `i` names
    have hij : i = j := by
      refine Nat.le_antisymm (hk.longest i hi.le (by omega)) (Nat.le_of_not_lt fun hlt ↦ ?_)
      have hmore : (joined newline (parts.take (i + 1))).length ≤ (joined newline (parts.take j)).length :=
        length_joined_take_le newline parts hlt
      omega
    subst hij
    rcases hcases with ⟨-, hall | hnone | hexact⟩ | ⟨hseparator, -⟩
    · omega
    · omega
    · omega
    · rw [ht] at hseparator
      exact absurd hseparator (by simp)
  · intro hclean
    rcases hcases with ⟨ht, -⟩ | ⟨-, hpos, hlt, hroom⟩
    · exact ⟨k, hk, ht⟩
    · have hthis := length_joined_take hpos hk.le
      have hnext : (joined newline (parts.take (k + 1))).length + 1 =
          ((parts.take (k + 1)).map List.length).sum + (k + 1) := length_joined_take (Nat.succ_pos k) hlt
      refine absurd ⟨k, hpos, hlt, by omega, ?_⟩ hclean
      by_contra hmore
      have hle := hk.longest (k + 1) hlt (by omega)
      omega

theorem length_le_of_mem_names (h : Terminated fsFiles) (slots : List ℕ) (hslots : ∀ i ∈ slots, i < maxFiles) :
    (names fsFiles slots).length ≤ slots.length ∧ ∀ name ∈ names fsFiles slots, name.length ≤ 31 := by
  refine ⟨List.length_filterMap_le _ _, fun name hname ↦ ?_⟩
  obtain ⟨i, hi, hentry⟩ := List.mem_filterMap.mp hname
  obtain ⟨⟨text, contents⟩, hfile, rfl⟩ := Option.map_eq_some_iff.mp hentry
  obtain ⟨huse, rfl, -⟩ := File.entry_eq_some hfile
  obtain ⟨nl, hnl⟩ := h i (hslots i hi) huse
  obtain ⟨-, hlt, -⟩ := Memory.terminator_eq_some.mp hnl
  rw [Memory.text_of_strlen hnl, Memory.length_bytes]
  exact Nat.le_of_lt_succ hlt

/-- Outside of that condition a listing is what it is asked to be. -/
theorem listed_iff (h : Terminated fsFiles) (hholds : Holds before bl t out)
    (hcut : Cut (names fsFiles (List.range maxFiles)) bl t) :
    Listed fsFiles before bl t.length out ↔
      ¬ EndsBehindSeparator (names fsFiles (List.range maxFiles)) bl := by
  have hroom := hholds.room
  rw [← hcut.whole_iff (by omega)]
  constructor
  · intro hlisted
    obtain ⟨k, hk, htext⟩ := hlisted.text
    exact ⟨k, hk, hholds.bytes.symm.trans htext⟩
  · rintro ⟨k, hk, rfl⟩
    refine ⟨by omega, hholds.outside, ?_, hholds.strlen, ⟨k, hk, hholds.bytes⟩, fun hlarge ↦ ?_⟩
    · exact (Memory.terminator_eq_some.mp hholds.strlen).1
    · obtain ⟨hcount, hbound⟩ :=
        length_le_of_mem_names h (List.range maxFiles) fun i hi ↦ List.mem_range.mp hi
      have hall : (joined newline (names fsFiles (List.range maxFiles))).length ≤ bl - 1 := by
        have hsum := length_joined_le newline _ hbound
        rw [List.length_range] at hcount
        have hfiles : maxFiles = 16 := rfl
        omega
      have hwhole := hk.longest _ (Nat.le_refl _) (by rw [List.take_length]; exact hall)
      rw [hholds.bytes, List.take_of_length_le hwhole]

/-- A listing of a table in which every name ends. -/
theorem sysListFiles_holds (h : Terminated fsFiles) (ob : Memory) {bl : ℤ} (hbl : 1 ≤ bl) :
    ∃ t out, sysListFiles fsFiles (some ob) bl = some ((t.length : ℤ), some out) ∧ Holds ob bl.toNat t out ∧
      Cut (names fsFiles (List.range maxFiles)) bl.toNat t := by
  have hclear : Holds ob bl.toNat (joined newline []) (ob.copy 0 Memory.zero bl.toNat) := by
    refine ⟨?_, fun i hi ↦ ?_, fun i hi ↦ ?_, nofun⟩
    · change 0 < bl.toNat
      omega
    · have hzero : ob.copy 0 Memory.zero bl.toNat (0 + i) = 0 := Memory.copy_inside _ _ hi
      rw [Nat.zero_add] at hzero
      exact hzero.trans (Memory.ofList_of_le (Nat.zero_le i)).symm
    · exact Memory.copy_above _ _ (by omega)
  obtain ⟨t, out, hloop, hholds, hcut⟩ := listLoop_spec h (List.range maxFiles)
    (fun i hi ↦ List.mem_range.mp hi) [] true (iff_of_true rfl rfl) hclear
  have hresult : sysListFiles fsFiles (some ob) bl = some ((t.length : ℤ), some out) := by
    unfold sysListFiles
    dsimp only
    rw [if_neg (by omega)]
    exact congrArg (Option.map fun (cp, ob) ↦ ((cp : ℤ), some ob)) hloop
  exact ⟨t, out, hresult, hholds, hcut⟩

/-- In every state that a sequence of calls after `fs_init` reaches, and for every buffer with room for at
least the terminator, a terminated string inside the buffer is written and its length returned.  It is made
of whole names, as many as fit, exactly when the buffer does not end between the separator behind a listed
name and the end of the next name. -/
theorem sysListFiles_listed_iff (previous : FileSystem) (l : List Call) (hl : ∀ c ∈ l, c.Terminated)
    (outcomes : List Outcome) (fsFiles : FileSystem)
    (hrun : FileSystem.calls (fsInit previous) l = some (outcomes, fsFiles)) (ob : Memory) (bl : ℤ)
    (hbl : 1 ≤ bl) :
    ∃ (n : ℕ) (out : Memory), sysListFiles fsFiles (some ob) bl = some ((n : ℤ), some out) ∧
      n ≤ bl.toNat - 1 ∧ (∀ i, bl.toNat ≤ i → out i = ob i) ∧ out.strlen bl.toNat = some n ∧
      (Listed fsFiles ob bl.toNat n out ↔
        ¬ EndsBehindSeparator (names fsFiles (List.range maxFiles)) bl.toNat) := by
  have hterminated : Terminated fsFiles := by
    obtain ⟨next, hcalls, hnext⟩ := (represents_fsInit previous).calls l hl
    rw [hrun, Option.some.injEq, Prod.mk.injEq] at hcalls
    rw [hcalls.2]
    exact hnext.terminated
  obtain ⟨t, out, hresult, hholds, hcut⟩ := sysListFiles_holds hterminated ob hbl
  exact ⟨t.length, out, hresult, Nat.le_sub_one_of_lt hholds.room, hholds.outside, hholds.strlen,
    listed_iff hterminated hholds hcut⟩

/-! ### Two files -/

/-- Empty files `a` and `bb`. -/
def twoFiles : List Call :=
  [.write (some (Memory.ofList [97])) 2 (some Memory.zero) 0,
    .write (some (Memory.ofList [98, 98])) 3 (some Memory.zero) 0]

theorem terminated_twoFiles : ∀ c ∈ twoFiles, c.Terminated := by
  have hfirst : (Memory.ofList [97]).strlen 2 = some 1 := by decide +kernel
  have hsecond : (Memory.ofList [98, 98]).strlen 3 = some 2 := by decide +kernel
  intro c hc
  simp only [twoFiles, List.mem_cons, List.not_mem_nil, or_false] at hc
  rcases hc with rfl | rfl
  · intro name hname
    rw [← Option.some.inj hname]
    exact ⟨1, hfirst⟩
  · intro name hname
    rw [← Option.some.inj hname]
    exact ⟨2, hsecond⟩

def cleared : FileSystem := fun _ ↦ ⟨Memory.zero, Memory.zero, 0, false⟩

theorem isSome_twoFiles : (FileSystem.calls (fsInit cleared) twoFiles).isSome = true := by decide +kernel

/-- The table with the two files. -/
def twoFilesSystem : FileSystem := ((FileSystem.calls (fsInit cleared) twoFiles).get isSome_twoFiles).2

theorem calls_twoFiles :
    ∃ outcomes, FileSystem.calls (fsInit cleared) twoFiles = some (outcomes, twoFilesSystem) :=
  ⟨_, (Option.some_get isSome_twoFiles).symm⟩

theorem names_twoFilesSystem : names twoFilesSystem (List.range maxFiles) = [[97], [98, 98]] := by
  decide +kernel

/-- A buffer of five bytes takes both names. -/
theorem sysListFiles_listed_twoFiles :
    ∃ (n : ℕ) (out : Memory), sysListFiles twoFilesSystem (some Memory.zero) 5 = some ((n : ℤ), some out) ∧
      Listed twoFilesSystem Memory.zero 5 n out := by
  obtain ⟨outcomes, hrun⟩ := calls_twoFiles
  obtain ⟨n, out, hresult, -, -, -, hlisted⟩ := sysListFiles_listed_iff cleared twoFiles terminated_twoFiles
    outcomes twoFilesSystem hrun Memory.zero 5 (by decide)
  refine ⟨n, out, hresult, hlisted.mpr ?_⟩
  rw [names_twoFilesSystem]
  rintro ⟨k, hpos, hk, -, hfull⟩
  obtain rfl : k = 1 := by
    change k < 2 at hk
    omega
  exact absurd hfull (by decide)

/-- In three bytes the list is `a` and a separator. -/
theorem sysListFiles_danglingSeparator :
    (∃ outcomes, FileSystem.calls (fsInit cleared) twoFiles = some (outcomes, twoFilesSystem)) ∧
      ∃ out, sysListFiles twoFilesSystem (some Memory.zero) 3 = some (2, some out) ∧
        out.bytes 2 = [97, newline] ∧ ¬ Listed twoFilesSystem Memory.zero 3 2 out := by
  refine ⟨calls_twoFiles, ?_⟩
  have hcall : (sysListFiles twoFilesSystem (some Memory.zero) 3).map
      (fun answer ↦ (answer.1, answer.2.map fun out ↦ out.bytes 2)) = some (2, some [97, newline]) := by
    decide +kernel
  obtain ⟨⟨n, buffer⟩, hresult, hpair⟩ := Option.map_eq_some_iff.mp hcall
  obtain ⟨rfl, hbuffer⟩ := Prod.mk.inj hpair
  obtain ⟨out, rfl, hbytes⟩ := Option.map_eq_some_iff.mp hbuffer
  refine ⟨out, hresult, hbytes, fun hlisted ↦ ?_⟩
  obtain ⟨k, hk, htext⟩ := hlisted.text
  rw [hbytes, names_twoFilesSystem] at htext
  have hle : k ≤ 2 := by
    have hk := hk.le
    rw [names_twoFilesSystem] at hk
    exact hk
  have hnone : ∀ j ≤ 2, [97, newline] ≠ joined newline (([[97], [98, 98]] : List (List UInt8)).take j) := by
    decide
  exact hnone k hle htext

end JordyOS.Files
