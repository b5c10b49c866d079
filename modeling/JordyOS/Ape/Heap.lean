import JordyOS.Machine.FirstFit
import JordyOS.Machine.Words

/-!
# The heap of the Apelang runtime

`malloc`, `free`, `realloc` and `calloc` of `ape/platform.c`.  The headers of the blocks stand in the
arena, between the contents of the blocks.  An address is a natural number and null is 0; a loop over the
block list has no value when it does not end within the number of headers that fit in the arena.
-/

namespace JordyOS.Ape

open Machine

/-! ## The code -/

def arenaSize : ℕ := 4 * 1024 * 1024

/-- `sizeof(Block)`. -/
def headerSize : ℕ := 32

/-- Where the linker puts `arena`. -/
structure Arena where
  base : ℕ
  aligned : 16 ∣ base
  pos : 0 < base
  fits : base + arenaSize ≤ 2 ^ 64

/-- The memory and `first`. -/
structure Heap where
  memory : Memory
  first : ℕ

def blockSize (m : Memory) (b : ℕ) : ℕ := m.readWord b 8
def blockNext (m : Memory) (b : ℕ) : ℕ := m.readWord (b + 8) 8
def blockAvailable (m : Memory) (b : ℕ) : Bool := m (b + 16) != 0

def setSize (m : Memory) (b size : ℕ) : Memory := m.writeWord b 8 size
def setNext (m : Memory) (b next : ℕ) : Memory := m.writeWord (b + 8) 8 next

def setAvailable (m : Memory) (b : ℕ) (available : Bool) : Memory :=
  m.set (b + 16) (if available then 1 else 0)

/-- `*b = (Block){size, next, available}`; the padding keeps its bytes. -/
def writeBlock (m : Memory) (b size next : ℕ) (available : Bool) : Memory :=
  setAvailable (setNext (setSize m b size) b next) b available

def apeHeapReset (arena : Arena) (h : Heap) : Heap where
  memory := writeBlock h.memory arena.base (arenaSize - headerSize) 0 true
  first := arena.base

/-- More rounds than there are headers in the arena. -/
def heapRounds : ℕ := arenaSize / headerSize

/-- What `malloc` does not need of the block becomes a block of its own. -/
def splitBlock (m : Memory) (b size : ℕ) : Memory :=
  let tail := b + headerSize + size
  let m := writeBlock m tail (blockSize m b - size - headerSize) (blockNext m b) true
  setSize (setNext m b tail) b size

/-- `free` joins a block with the next one. -/
def mergeBlock (m : Memory) (b : ℕ) : Memory :=
  let m := setSize m b (blockSize m b + (headerSize + blockSize m (blockNext m b)))
  setNext m b (blockNext m (blockNext m b))

/-- The loop of `malloc`: the memory and the result. -/
def mallocLoop (size : ℕ) : ℕ → Memory → ℕ → Option (Memory × ℕ)
  | 0, _, _ => none
  | rounds + 1, m, b =>
    if b = 0 then some (m, 0)
    else if blockAvailable m b = false ∨ blockSize m b < size then
      mallocLoop size rounds m (blockNext m b)
    else
      let m := if blockSize m b ≥ size + headerSize + 16 then splitBlock m b size else m
      some (setAvailable m b false, b + headerSize)

/-- A multiple of 16, and not 0. -/
def roundSize (size : UInt64) : UInt64 :=
  let size := (size + 15) &&& ~~~15
  if size = 0 then 16 else size

def malloc (arena : Arena) (h : Heap) (size : UInt64) : Option (Heap × ℕ) :=
  let h := if h.first = 0 then apeHeapReset arena h else h
  if size.toNat > arenaSize - headerSize then some (h, 0)
  else
    (mallocLoop (roundSize size).toNat heapRounds h.memory h.first).map fun (m, p) ↦
      ({ h with memory := m }, p)

/-- The loop of `free`. -/
def freeLoop : ℕ → Memory → ℕ → Option Memory
  | 0, _, _ => none
  | rounds + 1, m, b =>
    if b = 0 ∨ blockNext m b = 0 then some m
    else if blockAvailable m b = true ∧ blockAvailable m (blockNext m b) = true then
      freeLoop rounds (mergeBlock m b) b
    else freeLoop rounds m (blockNext m b)

def free (h : Heap) (ptr : ℕ) : Option Heap :=
  if ptr = 0 then some h
  else
    (freeLoop heapRounds (setAvailable h.memory (ptr - headerSize) true) h.first).map fun m ↦
      { h with memory := m }

def realloc (arena : Arena) (h : Heap) (ptr : ℕ) (size : UInt64) : Option (Heap × ℕ) :=
  if size = 0 then (free h ptr).map fun h ↦ (h, 0)
  else if ptr = 0 then malloc arena h size
  else if blockSize h.memory (ptr - headerSize) ≥ size.toNat then some (h, ptr)
  else
    match malloc arena h size with
    | none => none
    | some (h, next) =>
      if next = 0 then some (h, 0)
      else
        let m := h.memory.copy next (h.memory.shift ptr) (blockSize h.memory (ptr - headerSize))
        (free { h with memory := m } ptr).map fun h ↦ (h, next)

def calloc (arena : Arena) (h : Heap) (count size : UInt64) : Option (Heap × ℕ) :=
  if count ≠ 0 ∧ size > 0xffffffffffffffff / count then some (h, 0)
  else
    match malloc arena h (count * size) with
    | none => none
    | some (h, p) =>
      if p = 0 then some (h, 0)
      else some ({ h with memory := h.memory.copy p Memory.zero (count * size).toNat }, p)

/-! ## Headers -/

variable {m : Memory} {b i size next : ℕ} {available : Bool}

@[simp]
theorem blockSize_setSize : blockSize (setSize m b size) b = size % 2 ^ 64 :=
  Memory.readWord_writeWord m b 8 size

@[simp]
theorem blockNext_setSize : blockNext (setSize m b size) b = blockNext m b :=
  Memory.readWord_writeWord_of_apart m size (by omega)

@[simp]
theorem blockAvailable_setSize : blockAvailable (setSize m b size) b = blockAvailable m b := by
  rw [blockAvailable, setSize, Memory.writeWord_of_outside _ _ (by omega), ← blockAvailable]

@[simp]
theorem blockSize_setNext : blockSize (setNext m b next) b = blockSize m b :=
  Memory.readWord_writeWord_of_apart m next (by omega)

@[simp]
theorem blockNext_setNext : blockNext (setNext m b next) b = next % 2 ^ 64 :=
  Memory.readWord_writeWord m (b + 8) 8 next

@[simp]
theorem blockAvailable_setNext : blockAvailable (setNext m b next) b = blockAvailable m b := by
  rw [blockAvailable, setNext, Memory.writeWord_of_outside _ _ (by omega), ← blockAvailable]

@[simp]
theorem blockSize_setAvailable : blockSize (setAvailable m b available) b = blockSize m b :=
  Memory.readWord_set_of_ne m _ (by omega)

@[simp]
theorem blockNext_setAvailable : blockNext (setAvailable m b available) b = blockNext m b :=
  Memory.readWord_set_of_ne m _ (by omega)

@[simp]
theorem blockAvailable_setAvailable : blockAvailable (setAvailable m b available) b = available := by
  rw [blockAvailable, setAvailable, Memory.set_self]
  cases available <;> rfl

theorem blockNext_lt (m : Memory) (b : ℕ) : blockNext m b < 2 ^ 64 := Memory.readWord_lt m (b + 8) 8

@[simp]
theorem blockSize_writeBlock : blockSize (writeBlock m b size next available) b = size % 2 ^ 64 := by
  simp [writeBlock]

@[simp]
theorem blockNext_writeBlock : blockNext (writeBlock m b size next available) b = next % 2 ^ 64 := by
  simp [writeBlock]

@[simp]
theorem blockAvailable_writeBlock : blockAvailable (writeBlock m b size next available) b = available := by
  simp [writeBlock]

/-- A header is written inside its 32 bytes. -/
theorem setSize_of_outside (h : i < b ∨ b + headerSize ≤ i) : setSize m b size i = m i :=
  Memory.writeWord_of_outside _ _ (by unfold headerSize at h; omega)

theorem setNext_of_outside (h : i < b ∨ b + headerSize ≤ i) : setNext m b next i = m i :=
  Memory.writeWord_of_outside _ _ (by unfold headerSize at h; omega)

theorem setAvailable_of_outside (h : i < b ∨ b + headerSize ≤ i) : setAvailable m b available i = m i :=
  Memory.set_of_ne _ _ (by unfold headerSize at h; omega)

theorem writeBlock_of_outside (h : i < b ∨ b + headerSize ≤ i) :
    writeBlock m b size next available i = m i := by
  rw [writeBlock, setAvailable_of_outside h, setNext_of_outside h, setSize_of_outside h]

/-- A header is read from its 32 bytes. -/
theorem block_congr (m m' : Memory) (b : ℕ) (h : ∀ i, b ≤ i → i < b + headerSize → m' i = m i) :
    blockSize m' b = blockSize m b ∧ blockNext m' b = blockNext m b ∧
      blockAvailable m' b = blockAvailable m b := by
  unfold headerSize at h
  refine ⟨?_, ?_, ?_⟩
  · exact Memory.readWord_congr fun i hlow hhigh ↦ h i hlow (by omega)
  · exact Memory.readWord_congr fun i hlow hhigh ↦ h i (by omega) (by omega)
  · rw [blockAvailable, h (b + 16) (by omega) (by omega), ← blockAvailable]

end JordyOS.Ape
