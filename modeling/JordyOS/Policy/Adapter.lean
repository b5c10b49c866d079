import JordyOS.Bpf.Vm
import JordyOS.Machine.Fill
import JordyOS.Policy.Table

/-!
# The policy program and its adapter

`fw_bpf.c` and the policy program it runs.  The adapter writes the table into the maps of the program,
absolute blocks first, and takes over the verdict and the counters.  What the program includes from
upstream is a parameter: the matcher, the counter helper and the compiled code itself.
-/

namespace JordyOS.Policy

open Machine Net Bpf

/-! ## Maps -/

/-- A rule of the policy map: `struct rule`. -/
structure Rule where
  action : ℕ := 0
  direction : ℕ := 0
  family : ℕ := 0
  proto : ℕ := 0
  srcBits : ℕ := 0
  dstBits : ℕ := 0
  src : Memory := Memory.zero
  dst : Memory := Memory.zero
  dportLo : ℕ := 0
  dportHi : ℕ := 0
  index : ℕ := 0

/-- The first entry of the policy map: `struct header`. -/
structure Header where
  count : ℕ := 0
  ready : ℕ := 0
  schema : ℕ := 0
  generation : ℕ := 0
  defaults : ℕ → ℕ := fun _ ↦ 0
  blocks : ℕ := 0

/-- What the program learns about the packet: `struct packet`. -/
structure Metadata where
  direction : ℕ := 0
  family : ℕ := 0
  proto : ℕ := 0
  sport : ℕ := 0
  dport : ℕ := 0
  len : ℕ := 0
  src : Memory := Memory.zero
  dst : Memory := Memory.zero

/-- A source prefix of the early map and the index of its rule. -/
structure LpmEntry where
  prefixLen : ℕ := 0
  address : Memory := Memory.zero
  index : ℕ := 0

/-- The static variables behind the maps.  `policy` is the map without its header, which takes slot 0;
`blocks` holds `prefixes` and `indexes`, which are filled side by side. -/
structure Maps where
  header : Header
  policy : Fill Rule
  blocks : Fill LpmEntry
  counters : ℕ → UInt64
  enabled : Bool
  metadata : Metadata

def Maps.zero : Maps := ⟨{}, ⟨fun _ ↦ {}, 0⟩, ⟨fun _ ↦ {}, 0⟩, fun _ ↦ 0, false, {}⟩

/-! ## Upstream -/

/-- The parts that are not written here. -/
structure Upstream where
  /-- The matcher of the included header. -/
  matchesRule : Rule → Metadata → Bool
  /-- The counter helper, on the packet counters. -/
  count : ℕ → ℕ → (ℕ → UInt64) → ℕ → UInt64
  /-- Whether both embedded programs pass `bpf_validate`. -/
  ready : Bool
  /-- A run of the embedded policy code: its result and the counters after it. -/
  execute : Maps → BpfResult × (ℕ → UInt64)

/-! ## The policy program -/

def allowAction : ℕ := 1

/-- `map_lookup` of a rule: null behind the last entry. -/
def policyLookup (m : Maps) (key : ℕ) : Option Rule :=
  if key < fwRules + 1 then some (m.policy.slots key) else none

/-- The rounds `i` of the program's loop that are left; `none` is its early `return 1`. -/
def policyLoop (u : Upstream) (m : Maps) : List ℕ → Option (ℕ × (ℕ → UInt64))
  | [] => some (m.header.defaults (m.metadata.direction - 1), m.counters)
  | i :: rest =>
    if i ≥ m.header.count then
      some (m.header.defaults (m.metadata.direction - 1), m.counters)
    else
      match policyLookup m (i + 1) with
      | none => none
      | some r =>
        if u.matchesRule r m.metadata then
          some (r.action, u.count r.index m.header.generation m.counters)
        else policyLoop u m rest

/-- The policy program: what it returns and the counters after it.  Its other lookups are of slot 0
of an array and never null. -/
def jordyosPolicy (u : Upstream) (m : Maps) : UInt64 × (ℕ → UInt64) :=
  if m.enabled = false then (2, m.counters)
  else if m.header.ready = 0 ∨ m.header.schema ≠ 2 ∨ m.header.count > fwRules ∨
      m.metadata.direction < 1 ∨ m.metadata.direction > 2 then (1, m.counters)
  else
    match policyLoop u m (List.range fwRules) with
    | none => (1, m.counters)
    | some (action, counters) => (if action = allowAction then 2 else 1, counters)

/-! ## Serialisation -/

/-- The loop of `bits`; the mask is gone after 32 rounds. -/
def bitsLoop : ℕ → UInt32 → ℕ
  | 0, _ => 0
  | rounds + 1, mask => if mask = 0 then 0 else bitsLoop rounds (mask <<< 1) + 1

def bits (mask : UInt32) : ℕ := bitsLoop 32 mask

/-- The policy rule written for the native rule `i`. -/
def serialise (i : ℕ) (native : FirewallRule) : Rule where
  action := if native.block then 5 else if native.allow then 1 else 2
  direction := if native.block then 0 else native.direction.toNat + 1
  family := 4
  proto := native.protocol.toNat
  srcBits := bits native.sourceMask
  dstBits := bits native.destinationMask
  src := netWrite32 Memory.zero 0 native.source
  dst := netWrite32 Memory.zero 0 native.destination
  dportLo := native.port.toNat
  dportHi := native.port.toNat
  index := i

/-- What a round of `prepare` writes: `policy` from `entry` on, `prefixes` and `indexes` from
`blocked` on. -/
structure Serial where
  policy : Fill Rule
  blocks : Fill LpmEntry

def serialiseRound (fw : Firewall) (pass : ℕ) (s : Serial) (i : ℕ) : Serial :=
  if (fw.rules i).block ≠ decide (pass = 0) then s
  else
    let r := serialise i (fw.rules i)
    { policy := s.policy.push r
      blocks := if (fw.rules i).block then s.blocks.push ⟨r.srcBits, r.src, i⟩ else s.blocks }

/-- Both passes over the table. -/
def serialiseTable (fw : Firewall) (s : Serial) : Serial :=
  let rounds := List.range (min fw.count fwRules)
  rounds.foldl (serialiseRound fw 1) (rounds.foldl (serialiseRound fw 0) s)

/-- `prefixes` and `indexes` keep what an earlier run left behind the part written now. -/
def prepare (fw : Firewall) (m : Maps) : Maps :=
  let s := serialiseTable fw ⟨⟨fun _ ↦ {}, 1⟩, ⟨m.blocks.slots, 0⟩⟩
  { header :=
      { count := fw.count
        ready := 1
        schema := 2
        generation := 1
        defaults := fun d ↦ if d < 2 then (if fw.defaults d then 1 else 2) else 0
        blocks := s.blocks.used }
    policy := s.policy
    blocks := s.blocks
    counters := fun _ ↦ 0
    enabled := fw.enabled
    metadata := {} }

/-! ## Evaluation -/

/-- `firewall_bpf_stats`. -/
structure FirewallBpfStats where
  policyRuns : UInt32 := 0
  xdpRuns : UInt32 := 0
  xdpDrops : UInt32 := 0
  faults : UInt32 := 0
  steps : UInt32 := 0
  deriving DecidableEq

/-- The firewall with the static variables of its adapter. -/
structure System where
  fw : Firewall
  maps : Maps
  stats : FirewallBpfStats

def System.fault (s : System) : System :=
  { s with stats := { s.stats with faults := s.stats.faults + 1 } }

/-- The counters of a run are added to the rules. -/
def addHits (fw : Firewall) (counters : ℕ → UInt64) : Firewall :=
  { fw with rules := (List.range (min fw.count fwRules)).foldl (fun rules i ↦
      Function.update rules i { rules i with hits := (rules i).hits + (counters i).toUInt32 }) fw.rules }

def finish (s : System) (result : BpfResult) : Bool × System :=
  let s := { s with stats := { s.stats with steps := s.stats.steps + UInt32.ofNat result.steps } }
  if result.ok = false ∨ (result.value ≠ 1 ∧ result.value ≠ 2) then (false, s.fault)
  else (result.value == 2, { s with fw := addHits s.fw s.maps.counters })

/-- The packet as the program sees it. -/
def describe (p : Packet) (direction : ℕ) : Metadata where
  direction := direction + 1
  family := 4
  proto := p.protocol.toNat
  sport := p.sourcePort.toNat
  dport := p.destinationPort.toNat
  len := p.length.toNat
  src := netWrite32 Memory.zero 0 p.source
  dst := netWrite32 Memory.zero 0 p.destination

def fwBpfPolicy (u : Upstream) (s : System) (p : Packet) (direction : ℕ) : Bool × System :=
  if u.ready = false ∨ s.fw.count > fwRules then (false, s.fault)
  else
    let maps := { prepare s.fw s.maps with metadata := describe p direction }
    let stats := { s.stats with policyRuns := s.stats.policyRuns + 1 }
    let (result, counters) := u.execute maps
    finish { s with maps := { maps with counters := counters }, stats := stats } result

def fwAccept (u : Upstream) (s : System) (p : Packet) (direction : ℕ) : Bool × System :=
  if direction > fwOut then (false, s)
  else
    let (allow, s) := fwBpfPolicy u s p direction
    let increment (counts : ℕ → UInt32) := Function.update counts direction (counts direction + 1)
    (allow, { s with fw :=
      { s.fw with
        allowed := if allow then increment s.fw.allowed else s.fw.allowed
        denied := if allow then s.fw.denied else increment s.fw.denied } })

def netFrameMax : ℕ := 1514

/-- The XDP program sees the frame itself; a run is given by its result and the counters after it. -/
def fwBpfXdp (u : Upstream) (executeXdp : Maps → Memory → ℕ → BpfResult × (ℕ → UInt64)) (s : System)
    (frame : Memory) (size : ℕ) : Bool × System :=
  if u.ready = false ∨ size > netFrameMax ∨ s.fw.count > fwRules then (false, s.fault)
  else
    let maps := prepare s.fw s.maps
    let stats := { s.stats with xdpRuns := s.stats.xdpRuns + 1 }
    let (result, counters) := executeXdp maps frame size
    let (pass, s) := finish { s with maps := { maps with counters := counters }, stats := stats } result
    if pass then (true, s)
    else (false, { s with
      stats := { s.stats with xdpDrops := s.stats.xdpDrops + 1 }
      fw := { s.fw with denied := Function.update s.fw.denied 0 (s.fw.denied 0 + 1) } })

/-! ## What an evaluation leaves alone -/

/-- The firewall without the counters that evaluations change. -/
def Firewall.uncounted (fw : Firewall) : Firewall :=
  { fw with
    rules := fun i ↦ { fw.rules i with hits := 0 }
    denied := fun _ ↦ 0 }

theorem addHits_uncounted (fw : Firewall) (counters : ℕ → UInt64) :
    (addHits fw counters).uncounted = fw.uncounted := by
  have hrules : ∀ (l : List ℕ) (rules : ℕ → FirewallRule),
      (fun i ↦ { (l.foldl (fun rules i ↦ Function.update rules i
        { rules i with hits := (rules i).hits + (counters i).toUInt32 }) rules) i with hits := 0 }) =
      fun i ↦ ({ rules i with hits := 0 } : FirewallRule) := by
    intro l
    induction l with
    | nil => exact fun _ ↦ rfl
    | cons j l ih =>
      intro rules
      rw [List.foldl_cons, ih]
      funext i
      by_cases hi : i = j
      · rw [hi, Function.update_self]
      · rw [Function.update_of_ne hi]
  unfold Firewall.uncounted addHits
  dsimp only
  rw [hrules]

theorem finish_leaves (s : System) (r : BpfResult) :
    (finish s r).2.fw.uncounted = s.fw.uncounted ∧ (finish s r).2.maps = s.maps := by
  unfold finish
  dsimp only
  split
  · exact ⟨rfl, rfl⟩
  · exact ⟨addHits_uncounted s.fw s.maps.counters, rfl⟩

end JordyOS.Policy
