import JordyOS.Files.Bounded
import JordyOS.Gui.Calls
import JordyOS.Machine.Program

/-!
# System calls

`syscall` of `isolation.c` with the services behind it.  Every byte of user memory that the kernel reads or writes is
noted, in order, and an access outside one of the kernel's own buffers is a fault.  A `break` of the switch ends a
service as rejected, in the state that it has reached.  A service that waits for a key has no result as long as there
is none.  What `rtl_poll` and `ape_wait` do to the network and its devices is a parameter.
-/

namespace JordyOS.Isolation

open Machine

/-! ## The state of a call -/

/-- What the services use of the machine. -/
structure Platform (ν : Type) where
  /-- The glyphs of the BIOS. -/
  font : ℕ → UInt8
  rtlPoll : ν → ν
  apeWait : UInt32 → ν → ν

/-- The variables of the kernel that a service reads or writes. -/
structure Kernel (ν : Type) where
  fsFiles : Files.FileSystem
  terminal : Gui.Terminal
  ioBuffer : Memory
  /-- What the polls of the console to come find; zero is no key. -/
  polls : List UInt8
  network : ν
  pid : UInt32
  rejected : UInt32

/-- An access of the kernel to a byte of user memory. -/
structure Access where
  write : Bool
  address : UInt64

structure World (ν : Type) where
  kernel : Kernel ν
  /-- The memory that the active process sees. -/
  memory : UInt64 → UInt8
  accesses : List Access

/-- Why a service ends without an answer. -/
inductive Halt
  /-- An access outside a buffer of the kernel. -/
  | fault
  /-- No more polls of the console. -/
  | waiting
  /-- A `break` of the switch. -/
  | rejected

abbrev Service (ν α : Type) := Program (World ν) Halt α

variable {ν : Type}

def ofOption {α : Type} : Option α → Service ν α
  | some a => pure a
  | none => throw .fault

def ofScan {α : Type} : Scan α → Service ν α
  | .ok a => pure a
  | .error _ => throw .fault

/-! ## Memory -/

/-- An access is noted. -/
def World.note (w : World ν) (x : Access) : World ν := { w with accesses := w.accesses ++ [x] }

def load (address : UInt64) : Service ν UInt8 := do
  let w ← get
  set (w.note ⟨false, address⟩)
  pure (w.memory address)

def store (address : UInt64) (byte : UInt8) : Service ν PUnit :=
  modify fun w ↦ { w.note ⟨true, address⟩ with memory := Function.update w.memory address byte }

/-- `buffer[i]` of a buffer of `room` bytes. -/
def fetch (room : ℕ) (buffer : Memory) (i : ℕ) : Service ν UInt8 :=
  if i < room then pure (buffer i) else throw .fault

def put (room : ℕ) (buffer : Memory) (i : ℕ) (byte : UInt8) : Service ν Memory :=
  if i < room then pure (buffer.set i byte) else throw .fault

/-- `memcpy` from a buffer of the kernel. -/
def copyOut (room : ℕ) (target : UInt64) (source : Memory) (size : ℕ) : Service ν PUnit :=
  (List.range size).forM fun i ↦ do
    let byte ← fetch room source i
    store (target + UInt64.ofNat i) byte

/-- `memcpy` to a buffer of the kernel. -/
def copyIn (room : ℕ) (target : Memory) (source : UInt64) (size : ℕ) : Service ν Memory :=
  (List.range size).foldlM (fun target i ↦ do
    let byte ← load (source + UInt64.ofNat i)
    put room target i byte) target

/-- The string in a buffer. -/
def stringIn (room : ℕ) (buffer : Memory) : Service ν (List UInt8) :=
  ofOption ((buffer.strlen room).map buffer.bytes)

def checkRange (process : Process) (address size : UInt64) (write : Bool) : Service ν Bool :=
  ofOption (userRange (some process) address size write)

/-- `user_string` from the byte `i` on; `none` is the answer `false`. -/
def userString (process : Process) (source : UInt64) (room : ℕ) :
    (left i : ℕ) → (out : Memory) → Service ν (Option Memory)
  | 0, _, _ => pure none
  | left + 1, i, out =>
    if source.toNat > 2 ^ 64 - 1 - i then pure none
    else do
      let readable ← checkRange process (source + UInt64.ofNat i) 1 false
      if readable then do
        let byte ← load (source + UInt64.ofNat i)
        let out ← put room out i byte
        if byte = 0 then pure (some out) else userString process source room left (i + 1) out
      else pure none

/-! ## Console and screen -/

section Console

variable (platform : Platform ν)

def draw (f : Gui.Terminal → Scan Gui.Terminal) : Service ν PUnit := do
  let w ← get
  let t ← ofScan (f w.kernel.terminal)
  set { w with kernel := { w.kernel with terminal := t } }

def devices (f : ν → ν) : Service ν PUnit :=
  modify fun w ↦ { w with kernel := { w.kernel with network := f w.kernel.network } }

def pollCh : Service ν UInt8 := do
  devices platform.rtlPoll
  let w ← get
  match w.kernel.polls with
  | [] => throw .waiting
  | c :: polls => do
    set { w with kernel := { w.kernel with polls := polls } }
    pure c

/-- The loop of `get_ch`, for so many rounds. -/
def getChLoop : (rounds : ℕ) → Service ν UInt8
  | 0 => throw .waiting
  | rounds + 1 => do
    let c ← pollCh platform
    if c ≠ 0 then pure c else getChLoop rounds

/-- Every round takes a poll. -/
def getCh : Service ν UInt8 := do
  let w ← get
  getChLoop platform (w.kernel.polls.length + 1)

/-- The loop of `read_line` on a buffer of `room` bytes; every round takes a key. -/
def readLineLoop (room : ℕ) (max : ℤ) : (rounds len : ℕ) → (buf : Memory) → Service ν Memory
  | 0, _, _ => throw .waiting
  | rounds + 1, len, buf => do
    let c ← getCh platform
    if c = 10 then do
      draw (Gui.guiPutc platform.font 10)
      put room buf len 0
    else if (c = 8 ∨ c = 127) ∧ len > 0 then do
      draw (Gui.puts platform.font [8, 32, 8])
      readLineLoop room max rounds (len - 1) buf
    else if (c ≥ 32 ∧ c < 127) ∧ (len : ℤ) < max - 1 then do
      let buf ← put room buf len c
      draw (Gui.guiPutc platform.font c)
      readLineLoop room max rounds (len + 1) buf
    else readLineLoop room max rounds len buf

def readLine (room : ℕ) (buf : Memory) (max : ℤ) : Service ν Memory :=
  if max ≤ 0 then pure buf
  else do
    let w ← get
    readLineLoop platform room max (w.kernel.polls.length + 1) 0 buf

/-! ## The services -/

/-- The services of the switch. -/
inductive Usys
  | write | readline | getc | pollc | yield | clear | files | readFile | writeFile | deleteFile | paint | drawtext
  | terminal | wait | identity
  deriving DecidableEq

/-- The service with a number; the number of `USYS_EXIT` has none. -/
def Usys.ofNumber (number : UInt64) : Option Usys :=
  if number = 0 then none
  else
    [write, readline, getc, pollc, yield, clear, files, readFile, writeFile, deleteFile, paint, drawtext, terminal,
      wait, identity][number.toNat - 1]?

/-- The registers that `syscall` reads. -/
structure InterruptFrame where
  rax : UInt64
  rdi : UInt64
  rsi : UInt64
  rdx : UInt64
  rcx : UInt64
  r8 : UInt64

/-- `sizeof text`. -/
@[irreducible]
def textSize : ℕ := 2048

theorem textSize_eq : textSize = 2048 := by
  unfold textSize
  rfl

/-- A branch of the switch, with what the stack holds in place of `text` and `name` before. -/
def service (process : Process) (text name : Memory) (a b c d e : UInt64) : Usys → Service ν ℤ
  | .write => do
    let some text ← userString process a textSize textSize 0 text | throw .rejected
    let s ← stringIn textSize text
    draw (Gui.puts platform.font s)
    pure 0
  | .readline =>
    if b = 0 ∨ b.toNat > textSize then throw .rejected
    else do
      let writable ← checkRange process a b true
      if writable then do
        let text ← readLine platform textSize text (Gui.truncated b)
        let s ← stringIn textSize text
        copyOut textSize a text (s.length + 1)
        pure 0
      else throw .rejected
  | .getc => do
    let c ← getCh platform
    pure c.toNat
  | .pollc => do
    let c ← pollCh platform
    pure c.toNat
  | .yield => do
    devices platform.rtlPoll
    pure 0
  | .clear => do
    draw (Gui.guiClear platform.font)
    pure 0
  | .files =>
    if b = 0 ∨ b.toNat > Files.maxFiles * (Files.maxFilenameLen + 1) then throw .rejected
    else do
      let writable ← checkRange process a b true
      if writable then do
        let w ← get
        let (n, text) ← ofOption (Files.sysListFilesIn textSize w.kernel.fsFiles text (Gui.truncated b))
        if n ≥ 0 then do
          copyOut textSize a text (n.toNat + 1)
          pure n
        else pure n
      else throw .rejected
  | .readFile =>
    if c.toNat > Files.maxFileSize then throw .rejected
    else do
      let some name ← userString process a Files.maxFilenameLen Files.maxFilenameLen 0 name | throw .rejected
      let writable ← checkRange process b c true
      if writable then do
        let w ← get
        let (n, ioBuffer) ← ofOption (Files.sysReadFileIn Files.maxFileSize w.kernel.fsFiles name
          Files.maxFilenameLen w.kernel.ioBuffer (Gui.truncated c))
        set { w with kernel := { w.kernel with ioBuffer := ioBuffer } }
        if n ≥ 0 then do
          copyOut Files.maxFileSize b ioBuffer n.toNat
          pure n
        else pure n
      else throw .rejected
  | .writeFile =>
    if c.toNat > Files.maxFileSize then throw .rejected
    else do
      let some name ← userString process a Files.maxFilenameLen Files.maxFilenameLen 0 name | throw .rejected
      let readable ← checkRange process b c false
      if readable then do
        let before ← get
        let ioBuffer ← copyIn Files.maxFileSize before.kernel.ioBuffer b c.toNat
        let w ← get
        let (n, fsFiles) ← ofOption (Files.sysWriteFileIn Files.maxFileSize w.kernel.fsFiles name
          Files.maxFilenameLen ioBuffer (Gui.truncated c))
        set { w with kernel := { w.kernel with ioBuffer := ioBuffer, fsFiles := fsFiles } }
        pure n
      else throw .rejected
  | .deleteFile => do
    let some name ← userString process a Files.maxFilenameLen Files.maxFilenameLen 0 name | throw .rejected
    let w ← get
    let (n, fsFiles) ← ofOption (Files.sysDeleteFile w.kernel.fsFiles (some name) Files.maxFilenameLen)
    set { w with kernel := { w.kernel with fsFiles := fsFiles } }
    pure n
  | .paint =>
    if Gui.signed a < -320 ∨ Gui.signed a > 320 ∨ Gui.signed b < -200 ∨ Gui.signed b > 200 ∨ c > 640 ∨ d > 400 ∨
        e > 9 then throw .rejected
    else do
      draw fun t ↦ do
        let pixels ← Gui.guiPaint (Gui.truncated a) (Gui.truncated b) (Gui.truncated c) (Gui.truncated d)
          (Gui.truncated e) t.pixels
        .ok { t with pixels := pixels }
      pure 0
  | .drawtext =>
    if Gui.signed a < -320 ∨ Gui.signed a > 320 ∨ Gui.signed b < 0 ∨ b > 192 ∨ d > 9 then throw .rejected
    else do
      let some text ← userString process c textSize textSize 0 text | throw .rejected
      let s ← stringIn textSize text
      draw fun t ↦ do
        let pixels ← Gui.guiDrawtext platform.font (Gui.truncated a) (Gui.truncated b) s (Gui.truncated d) t.pixels
        .ok { t with pixels := pixels }
      pure 0
  | .terminal => do
    let some text ← userString process a textSize 38 0 text | throw .rejected
    let s ← stringIn textSize text
    draw (Gui.guiTerminal platform.font s)
    pure 0
  | .wait =>
    if a = 0 ∨ a > 1000 then throw .rejected
    else do
      devices (platform.apeWait a.toUInt32)
      pure 0
  | .identity => do
    let w ← get
    pure w.kernel.pid.toNat

/-- The switch. -/
def switch (process : Process) (text name : Memory) (f : InterruptFrame) : Service ν ℤ :=
  match Usys.ofNumber f.rax with
  | none => throw .rejected
  | some number => service platform process text name f.rdi f.rsi f.rdx f.rcx f.r8 number

/-- `rejected++`. -/
def World.reject (w : World ν) : World ν :=
  { w with kernel := { w.kernel with rejected := w.kernel.rejected + 1 } }

/-- Behind the switch a rejected call is counted and answered. -/
def syscall (process : Process) (text name : Memory) (f : InterruptFrame) : Service ν ℤ := fun w ↦
  match switch platform process text name f w with
  | .error .rejected w => .ok (-1) w.reject
  | result => result

end Console

end JordyOS.Isolation
