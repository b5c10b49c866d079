import JordyOS.Bpf.Embedding
import JordyOS.Bpf.Validation
import JordyOS.Machine.Outcome

/-!
# Relocated programs

The relocations of an accepted object are applied in the order of the file, each to the bytes that the ones before it
have left.  They change neither an opcode nor a byte of another instruction; so in a validated program every one of
them meets the first slot of a wide load, and the relocated program passes the validator as well.
-/

namespace JordyOS.Bpf.Embedding

open Machine

/-! ## What the object file says -/

/-- The section of a program; the names are those of the accepted file. -/
def programSection (raw : List UInt8) (sectionName : String) : Option (ℕ × Section) :=
  match namesOf raw with
  | .error _ => none
  | .ok names =>
    let index := names.idxOf (bytesOf sectionName)
    (sectionsOf raw)[index]?.map fun s ↦ (index, s)

/-- The instruction array of a program before it is relocated. -/
def unrelocated (raw : List UInt8) (sectionName : String) : List BpfInsn :=
  match programSection raw sectionName with
  | none => []
  | some (_, s) => instructions (Memory.ofList (s.bytes raw)) (s.bytes raw).length

/-- Where a relocation applies, and the index of the map it names. -/
structure Relocation where
  position : ℕ
  map : ℕ

/-- The name of the symbol of the entry `n` of a relocation section. -/
def symbolName (raw : List UInt8) (rel : Section) (n : ℕ) : Build (List UInt8) := do
  let symbols ← item (sectionsOf raw) rel.link
  let symbolData ← contents raw symbols
  let symbolStrings ← contents raw (← item (sectionsOf raw) symbols.link)
  let entry ← unpackEntry (rel.bytes raw) n
  let symbol ← entry.symbol symbolData
  name symbolStrings symbol.name

/-- The index of a map; a name that no map has stands for the number of maps. -/
def mapIndex : Build (List UInt8) → ℕ
  | .error _ => maps.length
  | .ok mapName => maps.idxOf mapName

def relocation (raw : List UInt8) (rel : Section) (n : ℕ) : Relocation where
  position := field (rel.bytes raw) (n * 16) 8
  map := mapIndex (symbolName raw rel n)

/-- The relocations of the program in the section `index`, in the order of the file. -/
def relocationsOf (raw : List UInt8) (index : ℕ) : List Relocation :=
  (sectionsOf raw).flatMap fun rel ↦
    if rel.type = 9 ∧ rel.info = index then (List.range (rel.size / 16)).map (relocation raw rel) else []

def relocations (raw : List UInt8) (sectionName : String) : List Relocation :=
  match programSection raw sectionName with
  | none => []
  | some (index, _) => relocationsOf raw index

/-- The map that the last relocation of the slot `k` names. -/
def lastMap (rels : List Relocation) (k : ℕ) : Option ℕ :=
  (rels.reverse.find? fun r ↦ r.position = k * 8).map Relocation.map

/-- The slots of the emitted array: those of the program, but for the wide loads that are relocated. -/
structure Relocated (code : List BpfInsn) (rels : List Relocation) (emitted : List BpfInsn) : Prop where
  length : emitted.length = code.length
  first : ∀ k i m, code[k]? = some i → lastMap rels k = some m → ∃ j, emitted[k]? = some j ∧
    j.code = i.code ∧ j.dst = i.dst ∧ j.src = 1 ∧ j.offset = i.offset ∧ j.immediate = Int32.ofNat m
  second : ∀ k hi m, code[k + 1]? = some hi → lastMap rels k = some m →
    emitted[k + 1]? = some { hi with immediate := 0 }
  rest : ∀ k, lastMap rels k = none → (∀ j, k = j + 1 → lastMap rels j = none) → emitted[k]? = code[k]?

/-! ## Relocated bytes -/

variable {data before : Memory} {rels : List Relocation} {r : Relocation} {position map length k m : ℕ}
  {i : BpfInsn} {code emitted : List BpfInsn}

theorem patch_apply (data : Memory) (position map n : ℕ) : patch data position map n =
    if position + 12 ≤ n ∧ n < position + 16 then 0
    else if position + 4 ≤ n ∧ n < position + 8 then UInt8.ofNat (map / 256 ^ (n - (position + 4)))
    else if n = position + 1 then data (position + 1) &&& 15 ||| 0x10
    else data n := by
  unfold patch Memory.writeWord Memory.set
  by_cases hsecond : position + 12 ≤ n ∧ n < position + 16
  · rw [if_pos hsecond, if_pos hsecond, Nat.zero_div]
    rfl
  · rw [if_neg hsecond, if_neg hsecond]

theorem patch_of_ne {n : ℕ} (hregs : n ≠ position + 1) (hfirst : n < position + 4 ∨ position + 8 ≤ n)
    (hsecond : n < position + 12 ∨ position + 16 ≤ n) : patch data position map n = data n := by
  rw [patch_apply, if_neg (by omega), if_neg (by omega), if_neg hregs]

/-- Opcodes stay. -/
theorem patch_code (hposition : position % 8 = 0) : patch data position map (k * 8) = data (k * 8) :=
  patch_of_ne (by omega) (by omega) (by omega)

/-- The load of a map. -/
def loadsMap (i : BpfInsn) (m : ℕ) : BpfInsn :=
  { i with regs := i.regs &&& 15 ||| 0x10, immediate := Int32.ofNat m }

theorem loadsMap_congr {j : BpfInsn} (hcode : i.code = j.code) (hoffset : i.offset = j.offset)
    (hregs : i.regs &&& 15 = j.regs &&& 15) (m : ℕ) : loadsMap i m = loadsMap j m := by
  unfold loadsMap
  rw [hcode, hoffset, hregs]

/-- The instruction at the target of a relocation. -/
theorem unpackInsn_patch (hmap : map < 7) :
    unpackInsn (patch data position map) position = loadsMap (unpackInsn data position) map := by
  have hregs : patch data position map (position + 1) = data (position + 1) &&& 15 ||| 0x10 := by
    rw [patch_apply, if_neg (by omega), if_neg (by omega), if_pos rfl]
  have hoffset : (patch data position map).readWord (position + 2) 2 = data.readWord (position + 2) 2 :=
    Memory.readWord_congr fun n _ _ ↦ patch_of_ne (by omega) (by omega) (by omega)
  have himmediate : (patch data position map).readWord (position + 4) 4 = map := by
    unfold patch
    dsimp only
    rw [Memory.readWord_writeWord_of_apart _ _ (by omega), Memory.readWord_writeWord]
    omega
  have hsigned : ∀ n : Fin 7, (UInt32.ofNat n).toInt32 = Int32.ofNat n := by decide
  unfold unpackInsn
  rw [hregs, hoffset, himmediate, patch_of_ne (by omega) (by omega) (by omega), hsigned ⟨map, hmap⟩]
  rfl

/-- The second slot of the target. -/
theorem unpackInsn_patch_second : unpackInsn (patch data position map) (position + 8) =
    { unpackInsn data (position + 8) with immediate := 0 } := by
  have hregs : patch data position map (position + 8 + 1) = data (position + 8 + 1) :=
    patch_of_ne (by omega) (by omega) (by omega)
  have hoffset : (patch data position map).readWord (position + 8 + 2) 2 = data.readWord (position + 8 + 2) 2 :=
    Memory.readWord_congr fun n _ _ ↦ patch_of_ne (by omega) (by omega) (by omega)
  have himmediate : (patch data position map).readWord (position + 8 + 4) 4 = 0 := by
    unfold patch
    dsimp only
    exact Memory.readWord_writeWord _ _ _ _
  unfold unpackInsn
  rw [hregs, hoffset, himmediate, patch_of_ne (by omega) (by omega) (by omega)]
  rfl

/-- Other instructions stay. -/
theorem unpackInsn_patch_of_ne (hposition : position % 8 = 0) (hfirst : k * 8 ≠ position)
    (hsecond : k * 8 ≠ position + 8) : unpackInsn (patch data position map) (k * 8) = unpackInsn data (k * 8) := by
  have hbyte : ∀ n, k * 8 ≤ n → n < k * 8 + 8 → patch data position map n = data n := by
    intro n hlow hhigh
    exact patch_of_ne (by omega) (by omega) (by omega)
  have hoffset : (patch data position map).readWord (k * 8 + 2) 2 = data.readWord (k * 8 + 2) 2 :=
    Memory.readWord_congr fun n _ _ ↦ hbyte n (by omega) (by omega)
  have himmediate : (patch data position map).readWord (k * 8 + 4) 4 = data.readWord (k * 8 + 4) 4 :=
    Memory.readWord_congr fun n _ _ ↦ hbyte n (by omega) (by omega)
  unfold unpackInsn
  rw [hoffset, himmediate, hbyte _ (by omega) (by omega), hbyte _ (by omega) (by omega)]

/-! ## The run of the relocations -/

/-- The bytes behind the relocations. -/
def applied (data : Memory) (rels : List Relocation) : Memory :=
  rels.foldl (fun data r ↦ patch data r.position r.map) data

/-- What the checks say of a relocation of a program. -/
structure Targets (data : Memory) (length : ℕ) (r : Relocation) : Prop where
  aligned : r.position % 8 = 0
  inside : r.position + 16 ≤ length
  wide : data r.position = 0x18
  map_lt : r.map < 7

theorem applied_concat (data : Memory) (rels : List Relocation) (r : Relocation) :
    applied data (rels ++ [r]) = patch (applied data rels) r.position r.map := List.foldl_concat ..

/-- Opcodes stay in the whole run. -/
theorem applied_code (data : Memory) (h : ∀ r ∈ rels, r.position % 8 = 0) (k : ℕ) :
    applied data rels (k * 8) = data (k * 8) := by
  induction rels using List.reverseRecOn with
  | nil => rfl
  | append_singleton rels r ih =>
    rw [applied_concat, patch_code (h r (List.mem_append_right rels List.mem_cons_self))]
    exact ih fun q hq ↦ h q (List.mem_append_left _ hq)

/-- The bytes are those behind the relocations so far, all of which have passed the checks. -/
def Progress (data : Memory) (length : ℕ) (rels : List Relocation) (state : Memory × ℕ) : Prop :=
  state.1 = applied data rels ∧ ∀ r ∈ rels, Targets data length r

variable {raw symbolData symbolStrings : List UInt8} {names : List (List UInt8)} {rel : Section}
  {s t : Memory × ℕ} {n index : ℕ}

theorem contents_ok {section_ : Section} {bytes : List UInt8} (h : contents raw section_ = .ok bytes) :
    bytes = section_.bytes raw := by
  unfold contents at h
  by_cases hlength : section_.offset + section_.size > raw.length
  · rw [if_pos hlength] at h
    cases h
  · rw [if_neg hlength] at h
    exact (Except.ok.inj h).symm

theorem item_ok {α : Type} {l : List α} {a : α} (h : item l n = .ok a) : l[n]? = some a := by
  unfold item at h
  cases hitem : l[n]? with
  | none =>
    rw [hitem] at h
    cases h
  | some b =>
    rw [hitem] at h
    exact congrArg some (Except.ok.inj h)

theorem unpackEntry_position {entries : List UInt8} {entry : Entry} (h : unpackEntry entries n = .ok entry) :
    entry.position = field entries (n * 16) 8 := by
  unfold unpackEntry unpackFrom at h
  by_cases hlength : n * 16 + 16 > entries.length
  · rw [if_pos hlength] at h
    cases h
  · rw [if_neg hlength] at h
    rw [← Except.ok.inj h]

/-- A round over the entries that raises no exception. -/
theorem relocate_ok (h : relocate raw names rel symbolData symbolStrings length s n = .ok t) :
    ∃ entry symbol mapName, unpackEntry (rel.bytes raw) n = .ok entry ∧ entry.symbol symbolData = .ok symbol ∧
      name symbolStrings symbol.name = .ok mapName ∧ mapName ∈ maps ∧ entry.position % 8 = 0 ∧
      entry.position + 16 ≤ length ∧ s.1 entry.position = 0x18 ∧
      t = (patch s.1 entry.position (maps.idxOf mapName), s.2 + 1) := by
  unfold relocate at h
  obtain ⟨entries, hentries, h⟩ := of_bind_ok h
  obtain ⟨entry, hentry, h⟩ := of_bind_ok h
  obtain ⟨symbol, hsymbol, h⟩ := of_bind_ok h
  obtain ⟨mapName, hname, h⟩ := of_bind_ok h
  rw [contents_ok hentries] at hentry
  refine ⟨entry, symbol, mapName, hentry, hsymbol, hname, ?_⟩
  by_cases hkind : entry.info % 2 ^ 32 ≠ 1 ∨ mapName ∉ maps
  · rw [if_pos hkind] at h
    cases h
  rw [if_neg hkind] at h
  obtain ⟨home, -, h⟩ := of_bind_ok h
  by_cases hhome : home ≠ bytesOf "maps"
  · rw [if_pos hhome] at h
    cases h
  rw [if_neg hhome] at h
  by_cases htarget : entry.position % 8 ≠ 0 ∨ entry.position + 16 > length ∨ s.1 entry.position ≠ 0x18
  · rw [if_pos htarget] at h
    cases h
  rw [if_neg htarget] at h
  rw [not_or, not_or, not_not, not_not, Nat.not_lt] at htarget
  have hmap : mapName ∈ maps := not_not.mp fun hne ↦ hkind (Or.inr hne)
  exact ⟨hmap, htarget.1, htarget.2.1, htarget.2.2, (Except.ok.inj h).symm⟩

/-- The symbols and strings of a relocation section. -/
structure Links (raw : List UInt8) (rel : Section) (symbolData symbolStrings : List UInt8) : Prop where
  symbols : ∃ symbols strings, item (sectionsOf raw) rel.link = .ok symbols ∧ contents raw symbols = .ok symbolData ∧
    item (sectionsOf raw) symbols.link = .ok strings ∧ contents raw strings = .ok symbolStrings

theorem Links.relocation_eq (h : Links raw rel symbolData symbolStrings) {entry : Entry} {symbol : Symbol}
    {mapName : List UInt8} (hentry : unpackEntry (rel.bytes raw) n = .ok entry)
    (hsymbol : entry.symbol symbolData = .ok symbol) (hname : name symbolStrings symbol.name = .ok mapName) :
    relocation raw rel n = ⟨entry.position, maps.idxOf mapName⟩ := by
  obtain ⟨symbols, strings, hsymbols, hdata, hstrings, hcontents⟩ := h.symbols
  have hmap : symbolName raw rel n = .ok mapName := by
    unfold symbolName
    rw [hsymbols, ok_bind, hdata, ok_bind, hstrings, ok_bind, hcontents, ok_bind, hentry, ok_bind, hsymbol, ok_bind,
      hname]
  unfold relocation
  rw [hmap, unpackEntry_position hentry]
  rfl

/-- A round over the entries applies the relocation of its entry. -/
theorem relocate_progress (hlinks : Links raw rel symbolData symbolStrings)
    (hprogress : Progress data length rels s)
    (h : relocate raw names rel symbolData symbolStrings length s n = .ok t) :
    Progress data length (rels ++ [relocation raw rel n]) t := by
  obtain ⟨entry, symbol, mapName, hentry, hsymbol, hname, hmap, haligned, hinside, hwide, rfl⟩ := relocate_ok h
  obtain ⟨hbytes, htargets⟩ := hprogress
  rw [hlinks.relocation_eq hentry hsymbol hname]
  have haligned' : entry.position / 8 * 8 = entry.position := Nat.div_mul_cancel (Nat.dvd_of_mod_eq_zero haligned)
  have hcode := applied_code data (fun r hr ↦ (htargets r hr).aligned) (entry.position / 8)
  rw [haligned', ← hbytes] at hcode
  have hlt : maps.idxOf mapName < 7 := List.idxOf_lt_length_iff.mpr hmap
  refine ⟨?_, fun r hr ↦ ?_⟩
  · rw [applied_concat, ← hbytes]
  · rcases List.mem_append.mp hr with hbefore | hlast
    · exact htargets r hbefore
    · rw [List.mem_singleton.mp hlast]
      exact ⟨haligned, hinside, hcode.symm.trans hwide, hlt⟩

/-- A round over the sections applies the relocations of the section, if it belongs to the program. -/
theorem relocateSection_progress (hprogress : Progress data length rels s)
    (h : relocateSection raw (sectionsOf raw) names index length s rel = .ok t) :
    Progress data length (rels ++ if rel.type = 9 ∧ rel.info = index then
      (List.range (rel.size / 16)).map (relocation raw rel) else []) t := by
  unfold relocateSection at h
  by_cases hother : rel.type ≠ 9 ∨ rel.info ≠ index
  · rw [if_pos hother] at h
    obtain rfl := Except.ok.inj h
    rw [if_neg fun hboth ↦ hother.elim (· hboth.1) (· hboth.2), List.append_nil]
    exact hprogress
  rw [if_neg hother] at h
  rw [not_or, not_not, not_not] at hother
  rw [if_pos hother]
  by_cases hform : rel.entrySize ≠ 16 ∨ rel.size % 16 ≠ 0
  · rw [if_pos hform] at h
    cases h
  rw [if_neg hform] at h
  obtain ⟨symbols, hsymbols, h⟩ := of_bind_ok h
  by_cases htable : symbols.type ≠ 2 ∨ symbols.entrySize ≠ 24
  · rw [if_pos htable] at h
    cases h
  rw [if_neg htable] at h
  obtain ⟨symbolData, hdata, h⟩ := of_bind_ok h
  obtain ⟨strings, hstrings, h⟩ := of_bind_ok h
  obtain ⟨symbolStrings, hcontents, h⟩ := of_bind_ok h
  have hlinks : Links raw rel symbolData symbolStrings :=
    ⟨symbols, strings, hsymbols, hdata, hstrings, hcontents⟩
  rw [List.map_eq_flatMap]
  exact foldlM_trace (Progress data length) (fun n _ before s t hbefore hround ↦
    relocate_progress hlinks hbefore hround) hprogress h

/-- The array of an accepted program is what its relocations leave of the bytes of its section. -/
theorem embedProgram_ok {sectionName : String} (hnames : namesOf raw = .ok names)
    (h : embedProgram raw (sectionsOf raw) names sectionName = .ok emitted) :
    ∃ bytes : List UInt8, unrelocated raw sectionName = instructions (Memory.ofList bytes) bytes.length ∧
      (∀ r ∈ relocations raw sectionName, Targets (Memory.ofList bytes) bytes.length r) ∧
      emitted = instructions (applied (Memory.ofList bytes) (relocations raw sectionName)) bytes.length := by
  unfold embedProgram indexOf at h
  obtain ⟨index, hindex, h⟩ := of_bind_ok h
  obtain ⟨section_, hsection, h⟩ := of_bind_ok h
  obtain ⟨bytes, hbytes, h⟩ := of_bind_ok h
  by_cases hsize : bytes = [] ∨ bytes.length % 8 ≠ 0 ∨ bytes.length / 8 > 4096
  · rw [if_pos hsize] at h
    cases h
  rw [if_neg hsize] at h
  obtain ⟨⟨relocated, count⟩, hrun, hend⟩ := of_bind_ok h
  dsimp only at hend
  by_cases hcount : count = 0
  · rw [if_pos hcount] at hend
    cases hend
  rw [if_neg hcount] at hend
  have hmem : bytesOf sectionName ∈ names := by
    by_contra hne
    rw [if_neg hne] at hindex
    cases hindex
  rw [if_pos hmem] at hindex
  obtain rfl := Except.ok.inj hindex
  have hprogram : programSection raw sectionName = some (names.idxOf (bytesOf sectionName), section_) := by
    unfold programSection
    rw [hnames]
    dsimp only
    rw [item_ok hsection]
    rfl
  have hrels : relocations raw sectionName = relocationsOf raw (names.idxOf (bytesOf sectionName)) := by
    unfold relocations
    rw [hprogram]
  have hprogress := foldlM_trace (Progress (Memory.ofList bytes) bytes.length)
    (fun rel _ before s t hbefore hround ↦ relocateSection_progress hbefore hround)
    ⟨rfl, fun r hr ↦ absurd hr List.not_mem_nil⟩ hrun
  rw [List.nil_append] at hprogress
  refine ⟨bytes, ?_, hrels ▸ hprogress.2, ?_⟩
  · unfold unrelocated
    rw [hprogram, contents_ok hbytes]
  · rw [← Except.ok.inj hend, hrels]
    exact congrArg (instructions · bytes.length) hprogress.1

/-- The two programs of an accepted object. -/
theorem embed_ok {programs : List Program} (h : embed raw = .ok programs) :
    ∃ names, namesOf raw = .ok names ∧
      programs.map (fun p ↦ (p.sectionName, p.cName)) =
        [("xdp", "ebpfw_xdp_code"), ("jordyos/policy", "ebpfw_policy_code")] ∧
      ∀ p ∈ programs, embedProgram raw (sectionsOf raw) names p.sectionName = .ok p.code := by
  unfold embed at h
  by_cases hmagic : raw.length < 64 ∨ raw.take 7 ≠ [0x7f, 0x45, 0x4c, 0x46, 2, 1, 1]
  · rw [if_pos hmagic] at h
    cases h
  rw [if_neg hmagic] at h
  dsimp only at h
  by_cases hobject : (unpackHeader raw).type ≠ 1 ∨ (unpackHeader raw).machine ≠ 247 ∨ (unpackHeader raw).entrySize ≠ 64
  · rw [if_pos hobject] at h
    cases h
  rw [if_neg hobject] at h
  by_cases htable : (unpackHeader raw).number = 0 ∨ (unpackHeader raw).strings ≥ (unpackHeader raw).number ∨
      (unpackHeader raw).offset + (unpackHeader raw).number * 64 > raw.length
  · rw [if_pos htable] at h
    cases h
  rw [if_neg htable] at h
  obtain ⟨names, hnames, h⟩ := of_bind_ok h
  simp only [List.mapM_cons, List.mapM_nil] at h
  obtain ⟨xdp, hxdp, h⟩ := of_bind_ok h
  obtain ⟨code, hcode, hxdp⟩ := of_bind_ok hxdp
  obtain rfl := Except.ok.inj hxdp
  obtain ⟨rest, hrest, h⟩ := of_bind_ok h
  obtain ⟨policy, hpolicy, hrest⟩ := of_bind_ok hrest
  obtain ⟨code', hcode', hpolicy⟩ := of_bind_ok hpolicy
  obtain rfl := Except.ok.inj hpolicy
  obtain rfl := Except.ok.inj hrest
  obtain rfl := Except.ok.inj h
  refine ⟨names, hnames, rfl, fun p hp ↦ ?_⟩
  rcases List.mem_cons.mp hp with rfl | hp
  · exact hcode
  · rw [List.mem_singleton.mp hp]
    exact hcode'

/-! ## Relocated slots -/

theorem lastMap_concat (rels : List Relocation) (r : Relocation) (k : ℕ) :
    lastMap (rels ++ [r]) k = if r.position = k * 8 then some r.map else lastMap rels k := by
  unfold lastMap
  rw [List.reverse_append, List.reverse_singleton, List.singleton_append, List.find?_cons]
  by_cases hr : r.position = k * 8
  · rw [if_pos hr, decide_eq_true hr]
    rfl
  · rw [if_neg hr, decide_eq_false hr]

theorem lastMap_eq_none (h : ∀ r ∈ rels, r.position ≠ k * 8) : lastMap rels k = none := by
  unfold lastMap
  rw [Option.map_eq_none_iff, List.find?_eq_none]
  intro r hr
  rw [decide_eq_true_eq]
  exact h r (List.mem_reverse.mp hr)

theorem exists_of_lastMap (h : lastMap rels k = some m) : ∃ r ∈ rels, r.position = k * 8 ∧ r.map = m := by
  unfold lastMap at h
  obtain ⟨r, hfind, hmap⟩ := Option.map_eq_some_iff.mp h
  have hposition := List.find?_some hfind
  rw [decide_eq_true_eq] at hposition
  exact ⟨r, List.mem_reverse.mp (List.mem_of_find?_eq_some hfind), hposition, hmap⟩

/-- What the relocations make of the slot `k`. -/
def relocateSlot (rels : List Relocation) (k : ℕ) (i : BpfInsn) : BpfInsn :=
  match lastMap rels k with
  | some m => loadsMap i m
  | none => if k ≠ 0 ∧ lastMap rels (k - 1) ≠ none then { i with immediate := 0 } else i

theorem relocateSlot_some (h : lastMap rels k = some m) (i : BpfInsn) :
    relocateSlot rels k i = loadsMap i m := by
  unfold relocateSlot
  rw [h]

theorem relocateSlot_second (h : lastMap rels k = none) (hk : k ≠ 0) (hfirst : lastMap rels (k - 1) ≠ none)
    (i : BpfInsn) : relocateSlot rels k i = { i with immediate := 0 } := by
  unfold relocateSlot
  rw [h]
  exact if_pos ⟨hk, hfirst⟩

theorem relocateSlot_rest (h : lastMap rels k = none) (hfirst : k = 0 ∨ lastMap rels (k - 1) = none) (i : BpfInsn) :
    relocateSlot rels k i = i := by
  unfold relocateSlot
  rw [h]
  exact if_neg fun hboth ↦ hfirst.elim hboth.1 hboth.2

/-- The source field and the destination after a relocation. -/
theorem regs_relocated (regs : UInt8) : (regs &&& 15 ||| 0x10) &&& 15 = regs &&& 15 ∧
    (regs &&& 15 ||| 0x10) >>> 4 = 1 := by
  have hall : ∀ n : Fin 256, (UInt8.ofFin n &&& 15 ||| 0x10) &&& 15 = UInt8.ofFin n &&& 15 ∧
      (UInt8.ofFin n &&& 15 ||| 0x10) >>> 4 = 1 := by decide +kernel
  exact hall regs.toFin

/-- A slot keeps everything but its source field and its immediate. -/
theorem relocateSlot_keeps (rels : List Relocation) (k : ℕ) (i : BpfInsn) :
    (relocateSlot rels k i).code = i.code ∧ (relocateSlot rels k i).offset = i.offset ∧
      (relocateSlot rels k i).regs &&& 15 = i.regs &&& 15 := by
  unfold relocateSlot
  cases lastMap rels k with
  | some m => exact ⟨rfl, rfl, (regs_relocated i.regs).1⟩
  | none =>
    by_cases hsecond : k ≠ 0 ∧ lastMap rels (k - 1) ≠ none
    · rw [if_pos hsecond]
      exact ⟨rfl, rfl, rfl⟩
    · rw [if_neg hsecond]
      exact ⟨rfl, rfl, rfl⟩

/-- No relocation applies to the slot behind the target of another one. -/
def Apart (rels : List Relocation) : Prop := ∀ r ∈ rels, ∀ q ∈ rels, q.position ≠ r.position + 8

/-- Relocation by relocation, every slot becomes what the last relocations make of it. -/
theorem unpackInsn_applied (htargets : ∀ r ∈ rels, r.position % 8 = 0 ∧ r.map < 7) (hapart : Apart rels) (k : ℕ) :
    unpackInsn (applied data rels) (k * 8) = relocateSlot rels k (unpackInsn data (k * 8)) := by
  induction rels using List.reverseRecOn with
  | nil => exact (relocateSlot_rest rfl (Or.inr rfl) _).symm
  | append_singleton rels r ih =>
    have hrels : ∀ q ∈ rels, q ∈ rels ++ [r] := fun q hq ↦ List.mem_append_left _ hq
    have hr : r ∈ rels ++ [r] := List.mem_append_right rels List.mem_cons_self
    have hslot := ih (fun q hq ↦ htargets q (hrels q hq)) fun q hq q' hq' ↦ hapart q (hrels q hq) q' (hrels q' hq')
    obtain ⟨haligned, hmap⟩ := htargets r hr
    obtain ⟨hcode, hoffset, hregs⟩ := relocateSlot_keeps rels k (unpackInsn data (k * 8))
    rw [applied_concat]
    by_cases hfirst : r.position = k * 8
    · have hlast : lastMap (rels ++ [r]) k = some r.map := by rw [lastMap_concat, if_pos hfirst]
      rw [relocateSlot_some hlast, hfirst, unpackInsn_patch hmap, hslot]
      exact loadsMap_congr hcode hoffset hregs r.map
    by_cases hsecond : r.position + 8 = k * 8
    · have hnone : lastMap (rels ++ [r]) k = none := by
        refine lastMap_eq_none fun q hq heq ↦ hapart r hr q hq ?_
        rw [heq, hsecond]
      have hlast : lastMap (rels ++ [r]) (k - 1) ≠ none := by
        rw [lastMap_concat, if_pos (by omega)]
        exact Option.some_ne_none _
      have hbefore : lastMap rels k = none := by
        rw [lastMap_concat, if_neg hfirst] at hnone
        exact hnone
      rw [relocateSlot_second hnone (by omega) hlast, ← hsecond, unpackInsn_patch_second, hsecond, hslot]
      unfold relocateSlot
      rw [hbefore]
      dsimp only
      split <;> rfl
    · rw [unpackInsn_patch_of_ne haligned (Ne.symm hfirst) (Ne.symm hsecond), hslot]
      unfold relocateSlot
      rw [lastMap_concat, if_neg hfirst]
      cases lastMap rels k with
      | some m => rfl
      | none =>
        by_cases hk : k = 0
        · rw [if_neg fun h ↦ h.1 hk, if_neg fun h ↦ h.1 hk]
        · have hprevious : lastMap (rels ++ [r]) (k - 1) = lastMap rels (k - 1) := by
            rw [lastMap_concat, if_neg (by omega)]
          rw [hprevious]

theorem getElem?_instructions (data : Memory) (length k : ℕ) :
    (instructions data length)[k]? = if k < length / 8 then some (unpackInsn data (k * 8)) else none := by
  unfold instructions
  rw [List.getElem?_map]
  by_cases hk : k < length / 8
  · rw [if_pos hk, List.getElem?_range hk]
    rfl
  · rw [if_neg hk, List.getElem?_eq_none (by rw [List.length_range]; omega)]
    rfl

theorem length_instructions (data : Memory) (length : ℕ) : (instructions data length).length = length / 8 := by
  rw [instructions, List.length_map, List.length_range]

theorem relocated_of_apart (data : Memory) (length : ℕ)
    (htargets : ∀ r ∈ rels, r.position % 8 = 0 ∧ r.map < 7) (hapart : Apart rels) :
    Relocated (instructions data length) rels (instructions (applied data rels) length) := by
  have hslot : ∀ k, (instructions (applied data rels) length)[k]? =
      ((instructions data length)[k]?).map (relocateSlot rels k) := by
    intro k
    rw [getElem?_instructions, getElem?_instructions, unpackInsn_applied htargets hapart]
    by_cases hk : k < length / 8
    · rw [if_pos hk, if_pos hk]
      rfl
    · rw [if_neg hk, if_neg hk]
      rfl
  have hbehind : ∀ k m, lastMap rels k = some m → lastMap rels (k + 1) = none := by
    intro k m hlast
    obtain ⟨r, hr, hposition, -⟩ := exists_of_lastMap hlast
    refine lastMap_eq_none fun q hq heq ↦ hapart r hr q hq ?_
    rw [heq, hposition]
    omega
  refine ⟨?_, ?_, ?_, ?_⟩
  · rw [length_instructions, length_instructions]
  · intro k i m hi hlast
    obtain ⟨hdst, hsrc⟩ := regs_relocated i.regs
    refine ⟨loadsMap i m, ?_, rfl, ?_, ?_, rfl, rfl⟩
    · rw [hslot, hi, Option.map_some, relocateSlot_some hlast]
    · exact congrArg UInt8.toNat hdst
    · exact congrArg UInt8.toNat hsrc
  · intro k hi m hsecond hlast
    have hfirst : lastMap rels (k + 1 - 1) ≠ none := by
      rw [Nat.add_sub_cancel, hlast]
      exact Option.some_ne_none m
    rw [hslot, hsecond, Option.map_some,
      relocateSlot_second (hbehind k m hlast) (Nat.succ_ne_zero k) hfirst]
  · intro k hnone hprevious
    have hfirst : k = 0 ∨ lastMap rels (k - 1) = none := by
      cases k with
      | zero => exact Or.inl rfl
      | succ j => exact Or.inr (hprevious j rfl)
    rw [hslot]
    cases (instructions data length)[k]? with
    | none => rfl
    | some i => rw [Option.map_some, relocateSlot_rest hnone hfirst]

/-! ## Validation -/

/-- The slot of a relocation. -/
theorem Targets.slot (h : Targets data length r) :
    (instructions data length)[r.position / 8]? = some (unpackInsn data r.position) := by
  have haligned := h.aligned
  have hinside := h.inside
  rw [getElem?_instructions, if_pos (by omega), Nat.div_mul_cancel (Nat.dvd_of_mod_eq_zero haligned)]

/-- The targets of the relocations of a validated program are wide loads, so none is behind another. -/
theorem apart_of_valid (hvalid : bpfValidate (instructions data length) = true)
    (htargets : ∀ r ∈ rels, Targets data length r) : Apart rels := by
  intro r hr q hq hbehind
  obtain ⟨hi, hsecond, hwide⟩ := validWide_of_code hvalid (htargets r hr).slot (htargets r hr).wide
  have hplace : q.position / 8 = r.position / 8 + 1 := by omega
  have hq' := (htargets q hq).slot
  rw [hplace, hsecond] at hq'
  have hcode := code_of_validWide hwide
  rw [Option.some.inj hq'] at hcode
  exact absurd (hcode.symm.trans (htargets q hq).wide) (by decide)

/-- The relocated slots of a program, with their maps. -/
def WideTargets (code : List BpfInsn) (rels : List Relocation) : Prop :=
  ∀ k m, lastMap rels k = some m → m < 7 ∧ ∃ i, code[k]? = some i ∧ i.code = 0x18

/-- No opcode is changed. -/
theorem Relocated.code_eq (h : Relocated code rels emitted) (k : ℕ) :
    emitted[k]?.map BpfInsn.code = code[k]?.map BpfInsn.code := by
  cases hslot : code[k]? with
  | none =>
    have hend : emitted[k]? = none := by
      rw [List.getElem?_eq_none_iff, h.length]
      exact List.getElem?_eq_none_iff.mp hslot
    rw [hend]
  | some i =>
    cases hlast : lastMap rels k with
    | some m =>
      obtain ⟨j, hj, hcode, -⟩ := h.first k i m hslot hlast
      rw [hj]
      exact congrArg some hcode
    | none =>
      by_cases hprevious : ∀ j, k = j + 1 → lastMap rels j = none
      · rw [h.rest k hlast hprevious, hslot]
      · obtain ⟨j, hj⟩ := not_forall.mp hprevious
        obtain ⟨rfl, hfirst⟩ := Classical.not_imp.mp hj
        obtain ⟨m, hm⟩ := Option.ne_none_iff_exists'.mp hfirst
        rw [h.second j i m hslot hm]
        rfl

theorem Relocated.target_eq (h : Relocated code rels emitted) (pc : ℕ) (offset : Int16) :
    target emitted pc offset = target code pc offset := by
  have hany : ∀ (l : List BpfInsn) (k : ℕ),
      l[k]?.any (fun i ↦ i.code != 0) = (l[k]?.map BpfInsn.code).any fun c ↦ c != 0 := by
    intro l k
    cases l[k]? <;> rfl
  unfold target
  dsimp only
  rw [h.length, hany, hany, h.code_eq]

/-- A relocated load passes the checks of a wide load. -/
theorem validWide_relocated {hi j : BpfInsn} (h : validWide i hi = true) (hdst : j.dst = i.dst) (hsrc : j.src = 1)
    (hoffset : j.offset = i.offset) (himmediate : j.immediate = Int32.ofNat m) (hm : m < 7) :
    validWide j { hi with immediate := 0 } = true := by
  have himm : ∀ n : Fin 7, (decide (Int32.ofNat n < 0) || decide (Int32.ofNat n ≥ 7)) = false := by decide
  unfold validWide at h ⊢
  rw [Bool.and_eq_true, Bool.and_eq_true] at h
  obtain ⟨⟨hfirst, hsecond⟩, -⟩ := h
  have hfirst' : (i.dst == 10 || i.offset != 0) = false := by
    rw [Bool.not_eq_true', Bool.or_eq_false_iff] at hfirst
    exact hfirst.1
  rw [hdst, hsrc, hoffset, himmediate, hsecond, hfirst', himm ⟨m, hm⟩]
  rfl

/-- What has passed the checks passes them after the relocation. -/
theorem Relocated.accepted (h : Relocated code rels emitted) (htargets : WideTargets code rels)
    (hvalid : bpfValidate code = true) (haccepted : Accepted code k i) (hslot : code[k]? = some i) :
    ∃ j, emitted[k]? = some j ∧ j.code = i.code ∧ Accepted emitted k j := by
  cases hlast : lastMap rels k with
  | some m =>
    obtain ⟨hm, i', hi', hwide⟩ := htargets k m hlast
    obtain rfl := Option.some.inj (hslot.symm.trans hi')
    obtain ⟨j, hj, hcode, hdst, hsrc, hoffset, himmediate⟩ := h.first k i m hslot hlast
    obtain ⟨hi, hsecond, hload⟩ := haccepted.wide hwide
    refine ⟨j, hj, hcode, ⟨hdst ▸ haccepted.dst_le, by omega, fun _ ↦ ?_, fun hne ↦ absurd (hcode.trans hwide) hne⟩⟩
    exact ⟨_, h.second k hi m hsecond hlast, validWide_relocated hload hdst hsrc hoffset himmediate hm⟩
  | none =>
    -- an instruction that passes the checks is not the second slot of a target
    have hprevious : ∀ j, k = j + 1 → lastMap rels j = none := by
      rintro j rfl
      by_contra hfirst
      obtain ⟨m, hm⟩ := Option.ne_none_iff_exists'.mp hfirst
      obtain ⟨-, i', hi', hwide⟩ := htargets j m hm
      obtain ⟨hi, hsecond, hload⟩ := validWide_of_code hvalid hi' hwide
      obtain rfl := Option.some.inj (hslot.symm.trans hsecond)
      exact haccepted.code_ne_zero (code_of_validWide hload)
    refine ⟨i, (h.rest k hlast hprevious).trans hslot, rfl, ⟨haccepted.dst_le, haccepted.src_le, ?_, ?_⟩⟩
    · intro hwide
      obtain ⟨hi, hsecond, hload⟩ := haccepted.wide hwide
      have hnone : lastMap rels (k + 1) = none := by
        by_contra hsome
        obtain ⟨m, hm⟩ := Option.ne_none_iff_exists'.mp hsome
        obtain ⟨-, i', hi', hwide'⟩ := htargets (k + 1) m hm
        obtain rfl := Option.some.inj (hsecond.symm.trans hi')
        exact absurd ((code_of_validWide hload).symm.trans hwide') (by decide)
      have hbehind : ∀ j, k + 1 = j + 1 → lastMap rels j = none := by
        intro j hj
        obtain rfl := Nat.succ.inj hj
        exact hlast
      exact ⟨hi, (h.rest (k + 1) hnone hbehind).trans hsecond, hload⟩
    · intro hne
      have htarget : target emitted k i.offset = target code k i.offset := h.target_eq k i.offset
      have hnarrow := haccepted.narrow hne
      unfold validNarrow validBranch at hnarrow ⊢
      rw [htarget]
      exact hnarrow

/-- The validator accepts the relocated program. -/
theorem Relocated.validateFrom (h : Relocated code rels emitted) (htargets : WideTargets code rels)
    (hvalid : bpfValidate code = true) (exit : Bool) (pc : ℕ)
    (hrun : Bpf.validateFrom code pc exit (code.drop pc) = true) :
    Bpf.validateFrom emitted pc exit (emitted.drop pc) = true := by
  induction hleft : code.length - pc using Nat.strong_induction_on generalizing pc exit with
  | _ left ih =>
    cases hslot : code[pc]? with
    | none =>
      have hend : code.length ≤ pc := List.getElem?_eq_none_iff.mp hslot
      rw [List.drop_eq_nil_of_le hend] at hrun
      rw [List.drop_eq_nil_of_le (h.length.trans_le hend)]
      exact hrun
    | some i =>
      have hlt : pc < code.length := (List.getElem?_eq_some_iff.mp hslot).1
      obtain ⟨haccepted, hrest⟩ := (validateFrom_iff exit hslot).mp hrun
      obtain ⟨j, hj, hcode, haccepted'⟩ := h.accepted htargets hvalid haccepted hslot
      have hwidth : j.width = i.width := by
        unfold BpfInsn.width
        rw [hcode]
      have hpos : 0 < i.width := by
        unfold BpfInsn.width
        split <;> decide
      refine (validateFrom_iff exit hj).mpr ⟨haccepted', ?_⟩
      rw [hwidth, hcode]
      exact ih (code.length - (pc + i.width)) (by omega) _ _ hrest rfl

theorem Relocated.valid (h : Relocated code rels emitted) (htargets : WideTargets code rels)
    (hvalid : bpfValidate code = true) : bpfValidate emitted = true := by
  have hrun := h.validateFrom htargets hvalid false 0 (validateFrom_of_valid hvalid)
  have hlength := length_of_valid hvalid
  unfold bpfValidate
  rw [h.length, if_neg]
  · exact hrun
  · simp only [Bool.or_eq_true, beq_iff_eq, decide_eq_true_eq, not_or, Nat.not_lt]
    exact ⟨hlength.1.ne', hlength.2⟩

/-- Where an accepted object holds a program that the validator accepts, its relocations are of wide loads, the emitted
array is the program with these loads relocated, each by the last of its relocations, and the validator accepts it. -/
theorem embed_relocates (raw : List UInt8) (programs : List Program) (h : embed raw = .ok programs) :
    programs.map (fun p ↦ (p.sectionName, p.cName)) =
      [("xdp", "ebpfw_xdp_code"), ("jordyos/policy", "ebpfw_policy_code")] ∧
    ∀ p ∈ programs, bpfValidate (unrelocated raw p.sectionName) = true →
      (∀ r ∈ relocations raw p.sectionName, r.position % 8 = 0 ∧ r.map < 7 ∧
        FirstSlot (unrelocated raw p.sectionName) (r.position / 8) ∧
        ∃ i, (unrelocated raw p.sectionName)[r.position / 8]? = some i ∧ i.code = 0x18) ∧
      Relocated (unrelocated raw p.sectionName) (relocations raw p.sectionName) p.code ∧
      bpfValidate p.code = true := by
  obtain ⟨names, hnames, hlist, hprograms⟩ := embed_ok h
  refine ⟨hlist, fun p hp hvalid ↦ ?_⟩
  obtain ⟨bytes, hunrelocated, htargets, hcode⟩ := embedProgram_ok hnames (hprograms p hp)
  rw [hunrelocated] at hvalid ⊢
  rw [hcode]
  have hwide : WideTargets (instructions (Memory.ofList bytes) bytes.length) (relocations raw p.sectionName) := by
    intro k m hlast
    obtain ⟨r, hr, hposition, rfl⟩ := exists_of_lastMap hlast
    have hplace : r.position / 8 = k := by omega
    exact ⟨(htargets r hr).map_lt, _, hplace ▸ (htargets r hr).slot, (htargets r hr).wide⟩
  have hrelocated := relocated_of_apart (Memory.ofList bytes) bytes.length
    (fun r hr ↦ ⟨(htargets r hr).aligned, (htargets r hr).map_lt⟩) (apart_of_valid hvalid htargets)
  refine ⟨fun r hr ↦ ?_, hrelocated, hrelocated.valid hwide hvalid⟩
  have hopcode : (unpackInsn (Memory.ofList bytes) r.position).code ≠ 0 := by
    change Memory.ofList bytes r.position ≠ 0
    rw [(htargets r hr).wide]
    decide
  have hscans := scans_of_ne_zero (validateFrom_of_valid hvalid) (Nat.zero_le _) (htargets r hr).slot hopcode
  exact ⟨(htargets r hr).aligned, (htargets r hr).map_lt,
    ⟨(List.getElem?_eq_some_iff.mp (htargets r hr).slot).1, hscans⟩, _, (htargets r hr).slot, (htargets r hr).wide⟩

/-! ## An object file -/

/-- A number in `size` bytes. -/
def littleEndian (size n : ℕ) : List UInt8 := (List.range size).map fun i ↦ UInt8.ofNat (n / 256 ^ i)

def sectionHeader (name type offset size link info entrySize : ℕ) : List UInt8 :=
  littleEndian 4 name ++ littleEndian 4 type ++ List.replicate 16 0 ++ littleEndian 8 offset ++ littleEndian 8 size ++
    littleEndian 4 link ++ littleEndian 4 info ++ List.replicate 8 0 ++ littleEndian 8 entrySize

/-- An object whose two programs share their bytes and their relocations: one wide load, relocated to `active` and then
to `stats`, and an exit. -/
def sharedObject : List UInt8 :=
  [0x7f, 0x45, 0x4c, 0x46, 2, 1, 1] ++ List.replicate 9 0 ++ littleEndian 2 1 ++ littleEndian 2 247 ++
    List.replicate 20 0 ++ littleEndian 8 64 ++ List.replicate 10 0 ++ littleEndian 2 64 ++ littleEndian 2 6 ++
    littleEndian 2 0 ++
  sectionHeader 0 3 448 40 0 0 0 ++
  sectionHeader 5 1 488 24 0 0 0 ++
  sectionHeader 9 1 488 24 0 0 0 ++
  sectionHeader 0 9 512 32 5 1 16 ++
  sectionHeader 0 9 512 32 5 2 16 ++
  sectionHeader 0 2 544 48 0 0 24 ++
  bytesOf "maps" ++ [0] ++ bytesOf "xdp" ++ [0] ++ bytesOf "jordyos/policy" ++ [0] ++ bytesOf "active" ++ [0] ++
    bytesOf "stats" ++ [0, 0, 0, 0] ++
  [0x18, 1, 0, 0, 9, 0, 0, 0, 0, 0, 0, 0, 9, 0, 0, 0, 0x95, 0, 0, 0, 0, 0, 0, 0] ++
  littleEndian 8 0 ++ littleEndian 8 1 ++ littleEndian 8 0 ++ littleEndian 8 (2 ^ 32 + 1) ++
  littleEndian 4 24 ++ List.replicate 20 0 ++ littleEndian 4 31 ++ List.replicate 20 0

def sharedCode : List BpfInsn := [⟨0x18, 0x11, 0, 2⟩, ⟨0, 0, 0, 0⟩, ⟨0x95, 0, 0, 0⟩]

theorem embed_relocates_sharedObject :
    Relocated (unrelocated sharedObject "xdp") (relocations sharedObject "xdp") sharedCode ∧
      bpfValidate sharedCode = true := by
  have hembed : embed sharedObject =
      .ok [⟨"xdp", "ebpfw_xdp_code", sharedCode⟩, ⟨"jordyos/policy", "ebpfw_policy_code", sharedCode⟩] := by
    decide +kernel
  have hvalid : bpfValidate (unrelocated sharedObject "xdp") = true := by decide +kernel
  exact ((embed_relocates sharedObject _ hembed).2 ⟨"xdp", "ebpfw_xdp_code", sharedCode⟩ List.mem_cons_self hvalid).2

end JordyOS.Bpf.Embedding
