import JordyOS.Bpf.Keys
import JordyOS.Machine.Run
import JordyOS.Machine.Words
import JordyOS.Policy.Partition

/-!
# The embedded programs

The adapter with the interpreter behind it.  The static variables become the maps of an environment, a
validated pair of programs stands for the embedded one, and a history is what happens to the firewall and
its adapter between two evaluations.  How the upstream structures lie in memory is a parameter.
-/

namespace JordyOS.Policy

open Machine Net Bpf

/-! ## Layout -/

/-- The structures of `ebpfw_shared.h` in memory.  A byte without a field is zero. -/
structure Abi where
  header : Header → Memory
  rule : Rule → Memory
  /-- `struct lpm_key`, from the prefix length and the address. -/
  lpmKey : ℕ → Memory → Memory
  metadata : Metadata → Memory
  metadataSize : ℕ
  counterSize : ℕ
  /-- The field `packets` of a counter. -/
  packets : Memory → UInt64
  packets_zero : packets Memory.zero = 0

/-- A number of type `uint32_t`. -/
def word (n : ℕ) : Memory := Memory.zero.writeWord 0 4 n

/-- An array whose elements take `stride` bytes. -/
def array (stride : ℕ) (element : ℕ → Memory) : Memory := fun i ↦ element (i / stride) (i % stride)

theorem array_congr {stride : ℕ} (hstride : 0 < stride) {f g : ℕ → Memory} {size i : ℕ}
    (h : ∀ k < size, g k = f k) (hi : i < size * stride) : array stride g i = array stride f i := by
  unfold array
  rw [h (i / stride) ((Nat.div_lt_iff_lt_mul hstride).mpr hi)]

theorem getElem?_bytes (memory : Memory) {size i : ℕ} (hi : i < size) :
    (memory.bytes size)[i]? = some (memory i) := by
  simp [Memory.bytes, hi]

/-- `indexes`. -/
def Maps.indexes (m : Maps) (k : ℕ) : UInt32 := UInt32.ofNat (m.blocks.slots k).index

/-! ## Environment -/

def policyBytes (abi : Abi) (m : Maps) : List UInt8 :=
  (array 96 fun k ↦ if k = 0 then abi.header m.header else abi.rule (m.policy.slots k)).bytes
    ((fwRules + 1) * 96)

def indexBytes (m : Maps) : List UInt8 := (array 4 fun k ↦ word (m.indexes k).toNat).bytes (fwRules * 4)

def prefixBytes (abi : Abi) (m : Maps) : List UInt8 :=
  (array 20 fun k ↦ abi.lpmKey (m.blocks.slots k).prefixLen (m.blocks.slots k).address).bytes (fwRules * 20)

/-- What `environment` is set to at the end of `prepare`: `POLICY`, `ACTIVE`, `STATS`, `EARLY4`, `EARLY6`,
`ENABLED` and `METADATA`. -/
def mapTable (abi : Abi) (m : Maps) : Fin bpfMaps → BpfMap
  | 0 => ⟨bpfArray, 4, 96, UInt32.ofNat (fwRules + 1), 0, some (policyBytes abi m), none, false⟩
  | 1 => ⟨bpfMapArray, 4, 4, 1, 0, some ((word 0).bytes 4), none, false⟩
  | 2 => ⟨bpfPercpuArray, 4, UInt32.ofNat abi.counterSize, UInt32.ofNat (fwRules + 16), 0,
      some (Memory.zero.bytes ((fwRules + 16) * abi.counterSize)), none, true⟩
  | 3 => ⟨bpfLpm, 20, 4, UInt32.ofNat fwRules, UInt32.ofNat m.blocks.used, some (indexBytes m),
      some (prefixBytes abi m), false⟩
  | 4 => ⟨bpfLpm, 20, 4, UInt32.ofNat fwRules, 0, some (indexBytes m), some (prefixBytes abi m), false⟩
  | 5 => ⟨bpfArray, 4, 4, 1, 0, some ((word m.enabled.toNat).bytes 4), none, false⟩
  | 6 => ⟨bpfArray, 4, UInt32.ofNat abi.metadataSize, 1, 0,
      some ((abi.metadata m.metadata).bytes abi.metadataSize), none, false⟩

def environment (abi : Abi) (m : Maps) (context packet : List UInt8) : BpfEnvironment where
  context := context
  packet := packet
  contextSize := UInt32.ofNat context.length
  packetSize := UInt32.ofNat packet.length
  maps := mapTable abi m

/-- `counters[i].packets`, for each `i`. -/
def readCounters (abi : Abi) (e : BpfEnvironment) (i : ℕ) : UInt64 :=
  abi.packets ((Memory.ofList ((e.maps 2).values.getD [])).shift (i * abi.counterSize))

/-- `ctx` in `fw_bpf_xdp`. -/
def xdpContext (size : ℕ) : List UInt8 :=
  (array 4 fun i ↦ word
    ([bpfData.toNat, bpfData.toNat + size, bpfData.toNat, 1, 0, 0].getD i 0)).bytes 24

/-- A call of `bpf_execute`: its result and the counters after it. -/
def executeIn (abi : Abi) (code : List BpfInsn) (m : Maps) (context packet : List UInt8) :
    BpfResult × (ℕ → UInt64) :=
  let run := bpfExecute code (environment abi m context packet)
  (result run, readCounters abi run.2.environment)

/-! ## Programs -/

/-- A pair of programs that can take the place of the embedded ones. -/
structure Programs where
  policy : List BpfInsn
  xdp : List BpfInsn
  policy_valid : bpfValidate policy = true
  xdp_valid : bpfValidate xdp = true

def embedded (u : Upstream) (abi : Abi) (programs : Programs) : Upstream :=
  { u with
    ready := bpfValidate programs.policy && bpfValidate programs.xdp
    execute := fun m ↦ executeIn abi programs.policy m [] [] }

def embeddedXdp (abi : Abi) (programs : Programs) (m : Maps) (frame : Memory) (size : ℕ) :
    BpfResult × (ℕ → UInt64) :=
  executeIn abi programs.xdp m (xdpContext size) (frame.bytes size)

/-! ## Histories -/

/-- What an evaluation is given. -/
inductive Input
  | policy (p : Packet) (direction : ℕ)
  | xdp (frame : Memory) (size : ℕ)

def evaluate (u : Upstream) (abi : Abi) (programs : Programs) (s : System) : Input → Bool × System
  | .policy p direction => fwBpfPolicy (embedded u abi programs) s p direction
  | .xdp frame size => fwBpfXdp (embedded u abi programs) (embeddedXdp abi programs) s frame size

/-- What changes the firewall. -/
inductive Operation
  | reset
  | add (rule : FirewallRule)
  | delete (number : ℕ)
  | setEnabled (enabled : Bool)
  | setDefault (direction : Fin 2) (allow : Bool)
  | evaluate (input : Input)

/-- The edit of the firewall; an evaluation is none. -/
def Operation.edit (fw : Firewall) : Operation → Firewall
  | .reset => fwReset
  | .add rule => (fwAdd fw rule).2
  | .delete number => (fwDelete fw number).2
  | .setEnabled enabled => { fw with enabled := enabled }
  | .setDefault direction allow =>
    { fw with defaults := Function.update fw.defaults direction allow }
  | .evaluate _ => fw

def Operation.apply (u : Upstream) (abi : Abi) (programs : Programs) (s : System) : Operation → System
  | .evaluate input => (Policy.evaluate u abi programs s input).2
  | o => { s with fw := o.edit s.fw }

/-- The system after a history, from `net_init` on. -/
def history (u : Upstream) (abi : Abi) (programs : Programs) (operations : List Operation) : System :=
  run (Operation.apply u abi programs) ⟨fwReset, Maps.zero, {}⟩ operations

/-- What an evaluation shows: the verdict, its steps and the hits it adds. -/
structure Observation where
  verdict : Bool
  steps : UInt32
  hits : ℕ → UInt32

def observe (u : Upstream) (abi : Abi) (programs : Programs) (s : System) (input : Input) : Observation :=
  let (verdict, t) := evaluate u abi programs s input
  { verdict := verdict
    steps := t.stats.steps - s.stats.steps
    hits := fun i ↦ (t.fw.rules i).hits - (s.fw.rules i).hits }

end JordyOS.Policy
