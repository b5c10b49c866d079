import JordyOS.Bpf.Vm
import JordyOS.Machine.Decimal
import JordyOS.Machine.Words

/-!
# Embedding the programs

`tools/embed_bpf.py`: from the bytes of an object file to the two instruction arrays that the kernel is compiled with,
or the exception that stops the build.  Python integers are natural numbers, the strings it decodes are the lists of
their ASCII codes, and a byte array is a memory together with its length.
-/

namespace JordyOS.Bpf.Embedding

open Machine

/-- The exceptions of the source. -/
inductive Exception
  /-- `ValueError`. -/
  | value (message : String)
  /-- `UnicodeDecodeError`. -/
  | unicode
  /-- `IndexError`. -/
  | index
  /-- `struct.error`. -/
  | struct
  deriving DecidableEq, Repr

abbrev Build := Except Exception

def invalid {α : Type} (message : String) : Build α := .error (.value message)

/-- `l[i]`. -/
def item {α : Type} (l : List α) (i : ℕ) : Build α :=
  match l[i]? with
  | some a => .ok a
  | none => .error .index

/-- The native maps, in the order of their indices. -/
def maps : List (List UInt8) :=
  ["policy_template", "active", "stats", "early4", "early6", "early_enabled", "metadata"].map bytesOf

/-! ## Reading the file -/

/-- One field of `struct.unpack_from`. -/
def field (data : List UInt8) (offset size : ℕ) : ℕ := (Memory.ofList data).readWord offset size

/-- `struct.unpack_from` needs all the bytes of its format. -/
def unpackFrom {α : Type} (data : List UInt8) (offset size : ℕ) (fields : α) : Build α :=
  if offset + size > data.length then .error .struct else .ok fields

/-- The fields of `<16sHHIQQQIHHHHHH` that are used: items 1, 2, 6, 11, 12 and 13. -/
structure Header where
  type : ℕ
  machine : ℕ
  offset : ℕ
  entrySize : ℕ
  number : ℕ
  strings : ℕ

def unpackHeader (raw : List UInt8) : Header where
  type := field raw 16 2
  machine := field raw 18 2
  offset := field raw 40 8
  entrySize := field raw 58 2
  number := field raw 60 2
  strings := field raw 62 2

/-- The fields of `<IIQQQQIIQQ` that are used: items 0, 1, 4, 5, 6, 7 and 9. -/
structure Section where
  name : ℕ
  type : ℕ
  offset : ℕ
  size : ℕ
  link : ℕ
  info : ℕ
  entrySize : ℕ

def unpackSection (raw : List UInt8) (position : ℕ) : Section where
  name := field raw position 4
  type := field raw (position + 4) 4
  offset := field raw (position + 24) 8
  size := field raw (position + 32) 8
  link := field raw (position + 40) 4
  info := field raw (position + 44) 4
  entrySize := field raw (position + 56) 8

/-- The fields of `<IBBHQQ` that are used: items 0 and 3. -/
structure Symbol where
  name : ℕ
  home : ℕ

def unpackSymbol (data : List UInt8) (position : ℕ) : Build Symbol :=
  unpackFrom data position 24 ⟨field data position 4, field data (position + 6) 2⟩

/-- `raw[start:start + size]`. -/
def Section.bytes (s : Section) (raw : List UInt8) : List UInt8 := (raw.drop s.offset).take s.size

def contents (raw : List UInt8) (s : Section) : Build (List UInt8) :=
  if s.offset + s.size > raw.length then invalid "Truncated section" else .ok (s.bytes raw)

def name (table : List UInt8) (start : ℕ) : Build (List UInt8) :=
  let rest := table.drop start
  if 0 ∈ rest then
    let text := rest.takeWhile (· ≠ 0)
    if text.all (· < 128) then .ok text else .error .unicode
  else invalid "Invalid string table"

/-! ## Relocation -/

/-- `struct.unpack_from('<BBhi', data, offset)`. -/
def unpackInsn (data : Memory) (offset : ℕ) : BpfInsn where
  code := data offset
  regs := data (offset + 1)
  offset := (UInt16.ofNat (data.readWord (offset + 2) 2)).toInt16
  immediate := (UInt32.ofNat (data.readWord (offset + 4) 4)).toInt32

/-- The instructions of the generated array. -/
def instructions (data : Memory) (length : ℕ) : List BpfInsn :=
  (List.range (length / 8)).map fun n ↦ unpackInsn data (n * 8)

/-- The three assignments to `data`, for the map of the given index. -/
def patch (data : Memory) (position map : ℕ) : Memory :=
  let data := data.set (position + 1) (data (position + 1) &&& 15 ||| 0x10)
  let data := data.writeWord (position + 4) 4 map
  data.writeWord (position + 12) 4 0

/-- The target and the kind of the entry `n` of a relocation section. -/
structure Entry where
  position : ℕ
  info : ℕ

def unpackEntry (entries : List UInt8) (n : ℕ) : Build Entry :=
  unpackFrom entries (n * 16) 16 ⟨field entries (n * 16) 8, field entries (n * 16 + 8) 8⟩

/-- `symbol`, for the index in the upper half of `info`. -/
def Entry.symbol (entry : Entry) (symbolData : List UInt8) : Build Symbol :=
  unpackSymbol symbolData ((entry.info >>> 32) * 24)

/-- A round of the loop over the entries of the relocation section `rel`; a byte array and a count go through it. -/
def relocate (raw : List UInt8) (names : List (List UInt8)) (rel : Section) (symbolData symbolStrings : List UInt8)
    (length : ℕ) (state : Memory × ℕ) (n : ℕ) : Build (Memory × ℕ) := do
  let entry ← unpackEntry (← contents raw rel) n
  let kind := entry.info % 2 ^ 32
  let symbol ← entry.symbol symbolData
  let mapName ← name symbolStrings symbol.name
  let unsupported := "Unsupported relocation: " ++ String.ofList (mapName.map fun c ↦ Char.ofNat c.toNat) ++
    ", type " ++ toString kind
  if kind ≠ 1 ∨ mapName ∉ maps then invalid unsupported
  else if (← item names symbol.home) ≠ bytesOf "maps" then invalid unsupported
  else if entry.position % 8 ≠ 0 ∨ entry.position + 16 > length ∨ state.1 entry.position ≠ 0x18 then
    invalid "Invalid map relocation instruction"
  else .ok (patch state.1 entry.position (maps.idxOf mapName), state.2 + 1)

/-- A round of the loop over the sections, for the program in the section `index`. -/
def relocateSection (raw : List UInt8) (sections : List Section) (names : List (List UInt8)) (index length : ℕ)
    (state : Memory × ℕ) (rel : Section) : Build (Memory × ℕ) :=
  if rel.type ≠ 9 ∨ rel.info ≠ index then .ok state
  else if rel.entrySize ≠ 16 ∨ rel.size % 16 ≠ 0 then invalid "Unsupported relocations"
  else do
    let symbols ← item sections rel.link
    if symbols.type ≠ 2 ∨ symbols.entrySize ≠ 24 then invalid "Invalid symbol table"
    else
      let symbolData ← contents raw symbols
      let symbolStrings ← contents raw (← item sections symbols.link)
      (List.range (rel.size / 16)).foldlM (relocate raw names rel symbolData symbolStrings length) state

/-- `names.index(section_name)`. -/
def indexOf (names : List (List UInt8)) (sectionName : String) : Build ℕ :=
  if bytesOf sectionName ∈ names then .ok (names.idxOf (bytesOf sectionName))
  else invalid ("'" ++ sectionName ++ "' is not in list")

/-- The round of the outer loop for one program. -/
def embedProgram (raw : List UInt8) (sections : List Section) (names : List (List UInt8)) (sectionName : String) :
    Build (List BpfInsn) := do
  let index ← indexOf names sectionName
  let data ← contents raw (← item sections index)
  if data = [] ∨ data.length % 8 ≠ 0 ∨ data.length / 8 > 4096 then invalid "Invalid BPF instruction count"
  else
    let (relocated, relocations) ←
      sections.foldlM (relocateSection raw sections names index data.length) (Memory.ofList data, 0)
    if relocations = 0 then invalid "Program must reference native BPF maps"
    else .ok (instructions relocated data.length)

/-! ## The object file -/

def sectionsOf (raw : List UInt8) : List Section :=
  let header := unpackHeader raw
  (List.range header.number).map fun i ↦ unpackSection raw (header.offset + i * 64)

def namesOf (raw : List UInt8) : Build (List (List UInt8)) := do
  let sectionStrings ← contents raw (← item (sectionsOf raw) (unpackHeader raw).strings)
  (sectionsOf raw).mapM fun s ↦ name sectionStrings s.name

/-- The two arrays of the generated header, with the sections they come from. -/
structure Program where
  sectionName : String
  cName : String
  code : List BpfInsn
  deriving DecidableEq

def embed (raw : List UInt8) : Build (List Program) := do
  if raw.length < 64 ∨ raw.take 7 ≠ [0x7f, 0x45, 0x4c, 0x46, 2, 1, 1] then invalid "Expected little-endian ELF64"
  else
    let header := unpackHeader raw
    if header.type ≠ 1 ∨ header.machine ≠ 247 ∨ header.entrySize ≠ 64 then
      invalid "Expected relocatable EM_BPF object"
    else if header.number = 0 ∨ header.strings ≥ header.number ∨ header.offset + header.number * 64 > raw.length then
      invalid "Invalid section table"
    else
      let names ← namesOf raw
      [("xdp", "ebpfw_xdp_code"), ("jordyos/policy", "ebpfw_policy_code")].mapM fun (sectionName, cName) ↦ do
        let code ← embedProgram raw (sectionsOf raw) names sectionName
        .ok ⟨sectionName, cName, code⟩

end JordyOS.Bpf.Embedding
