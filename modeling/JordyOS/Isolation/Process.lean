import JordyOS.Isolation.Image
import JordyOS.Machine.Paging
import JordyOS.Machine.Text

/-!
# Preparing a process

The part of `isolation.c` that gives a slot its page tables and its memory before a launch.  Tables are
arrays of entries; the addresses of the arrays follow from where the linker puts `processes`.
-/

namespace JordyOS.Isolation

open Machine

/-! ## Layout -/

def page : ℕ := 4096

def P : UInt64 := 1

def W : UInt64 := 2

def U : UInt64 := 4

def NX : UInt64 := 0x8000000000000000

def slots : ℕ := 2

def userImageLimit : ℕ := 8 * 1024 * 1024

def userStartup : ℕ := userBase + userImageLimit

def userStackBottom : ℕ := userStartup + 8192

def userStackSize : ℕ := 256 * 1024

def userStackTop : ℕ := userStackBottom + userStackSize

def marker : ℕ := userBase + userImageLimit - page

structure PageTables where
  pml4 : ℕ → UInt64
  pdpt : ℕ → UInt64
  pd : ℕ → UInt64
  pt : ℕ → ℕ → UInt64

structure Process where
  tables : PageTables
  memory : Memory
  startup : Memory
  stack : Memory

/-- `memset(p, 0, sizeof *p)`: whatever the slot holds is overwritten. -/
def Process.clear (p : Process) : Process :=
  { p with
    tables := ⟨fun _ ↦ 0, fun _ ↦ 0, fun _ ↦ 0, fun _ _ ↦ 0⟩
    memory := Memory.zero
    startup := Memory.zero
    stack := Memory.zero }

/-- The tables of a process take eight pages, its three arrays the rest. -/
def tablesSize : ℕ := 8 * page

def processSize : ℕ := tablesSize + userImageLimit + page + userStackSize

/-- Where `linker.ld` puts the array `processes`: page-aligned, in the part of the kernel that starts at
1 MiB and ends below 32 MiB. -/
structure Placement where
  processes : ℕ
  aligned : processes % page = 0
  above : 0x100000 ≤ processes
  below : processes + slots * processSize ≤ 0x02000000

namespace Placement

variable (place : Placement) (slot : ℕ)

def process : ℕ := place.processes + slot * processSize

def pml4 : ℕ := place.process slot

def pdpt : ℕ := place.process slot + page

def pd : ℕ := place.process slot + 2 * page

def pt (i : ℕ) : ℕ := place.process slot + (3 + i) * page

def memory : ℕ := place.process slot + tablesSize

def startup : ℕ := place.memory slot + userImageLimit

def stack : ℕ := place.startup slot + page

end Placement

/-! ## map_page -/

/-- Write one entry of a two-dimensional array. -/
def setEntry (pt : ℕ → ℕ → UInt64) (i j : ℕ) (entry : UInt64) : ℕ → ℕ → UInt64 :=
  Function.update pt i (Function.update (pt i) j entry)

def mapPage (p : Process) (address physical flags : UInt64) : Process :=
  let offset := address - UInt64.ofNat userBase
  { p with tables := { p.tables with
      pt := setEntry p.tables.pt (offset >>> 21).toNat (offset >>> 12 &&& 511).toNat
        (physical ||| P ||| U ||| flags) } }

/-! ## prepare -/

/-- The values of `offset` in a loop `for (offset = 0; offset < size; offset += PAGE)`. -/
def pageOffsets (size : ℕ) : List UInt64 :=
  (List.range ((size + 4095) / page)).map fun k ↦ UInt64.ofNat (k * page)

/-- One round of the loop over `user_segments`. -/
def loadSegment (place : Placement) (image : UserImage) (slot : ℕ) (p : Process) (s : UserSegment) :
    Process :=
  let memory := p.memory.copy s.offset.toNat (image.userImageBytes.shift s.payloadOffset.toNat)
    s.fileSize.toNat
  let flags := (if s.flags &&& 2 ≠ 0 then W else 0) ||| (if s.flags &&& 1 ≠ 0 then 0 else NX)
  (pageOffsets s.memorySize.toNat).foldl (fun p offset ↦
      mapPage p (UInt64.ofNat userBase + s.offset.toUInt64 + offset)
        (UInt64.ofNat (place.memory slot) + s.offset.toUInt64 + offset) flags)
    { p with memory := memory }

/-- The upper levels, which no later step of `prepare` writes. -/
def linkTables (place : Placement) (slot : ℕ) (t : PageTables) : PageTables where
  pml4 := Function.update t.pml4 0 (UInt64.ofNat (place.pdpt slot) ||| P ||| W ||| U)
  -- the directory of the kernel at 0x82000 stays supervisor-only
  pdpt := Function.update (Function.update t.pdpt 0 (0x82000 ||| P ||| W)) 1
    (UInt64.ofNat (place.pd slot) ||| P ||| W ||| U)
  pd := (List.range 5).foldl (fun pd i ↦
    Function.update pd i (UInt64.ofNat (place.pt slot i) ||| P ||| W ||| U)) t.pd
  pt := t.pt

/-- `umodePeerRead` and `umodePeerWrite` are the modes that learn the address of the other marker. -/
def umodePeerRead : UInt32 := 4

def umodePeerWrite : UInt32 := 5

def write64 (target : Memory) (offset : ℕ) (value : UInt64) : Memory :=
  (List.range 8).foldl (fun m i ↦ m.set (offset + i) (value >>> UInt64.ofNat (8 * i)).toUInt8) target

/-- The fields of `UserStartup`: `mode`, `peer_address`, `marker_address` and `command`. -/
def writeStartup (place : Placement) (slot : ℕ) (mode : UInt32) (command : Option Memory)
    (startup : Memory) : Memory :=
  let startup := write64 startup 0 mode.toUInt64
  let startup := write64 startup 16 (UInt64.ofNat marker)
  let startup :=
    if mode = umodePeerRead ∨ mode = umodePeerWrite then
      write64 startup 8 (UInt64.ofNat (place.memory (slot ^^^ 1) + userImageLimit - page))
    else startup
  match command with
  | some command => startup.strncpy 24 command 95
  | none => startup

/-- `p` is what an earlier process has left in the slot. -/
def prepare (place : Placement) (image : UserImage) (slot : ℕ) (mode : UInt32)
    (command : Option Memory) (p : Process) : Process :=
  let p := p.clear
  let p := { p with tables := linkTables place slot p.tables }
  let p := image.userSegments.foldl (loadSegment place image slot) p
  let p := mapPage p (UInt64.ofNat marker)
    (UInt64.ofNat (place.memory slot + userImageLimit - page)) (W ||| NX)
  let p := mapPage p (UInt64.ofNat userStartup) (UInt64.ofNat (place.startup slot)) NX
  let p := (pageOffsets userStackSize).foldl (fun p offset ↦
    mapPage p (UInt64.ofNat userStackBottom + offset) (UInt64.ofNat (place.stack slot) + offset)
      (W ||| NX)) p
  { p with startup := writeStartup place slot mode command p.startup }

end JordyOS.Isolation
