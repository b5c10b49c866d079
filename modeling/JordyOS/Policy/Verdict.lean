import JordyOS.Machine.Run
import JordyOS.Net.Prefix
import JordyOS.Policy.Adapter
import Mathlib.Data.List.Find

/-!
# The verdict

The policy in its own terms: an absolute block whose prefix contains the source refuses the packet,
otherwise the first ordinary rule that applies decides, otherwise the default of the direction.  The
way through the maps and the program computes this verdict and counts a hit for the rule that decided.
-/

namespace JordyOS.Policy

open Machine Net Bpf

/-! ## The policy -/

namespace FirewallRule

/-- The source prefix of the rule contains the source of the packet. -/
def containsSource (r : FirewallRule) (p : Packet) : Bool :=
  r.source &&& r.sourceMask == p.source &&& r.sourceMask

def containsDestination (r : FirewallRule) (p : Packet) : Bool :=
  r.destination &&& r.destinationMask == p.destination &&& r.destinationMask

/-- An ordinary rule matches the packet. -/
def applies (r : FirewallRule) (p : Packet) (direction : ℕ) : Bool :=
  r.direction.toNat == direction && (r.protocol == 0 || r.protocol == p.protocol) &&
    r.containsSource p && r.containsDestination p && (r.port == 0 || r.port == p.destinationPort)

/-- The masks are prefixes, and a block rule constrains the source only. -/
structure Plain (r : FirewallRule) : Prop where
  source : ∃ n ≤ 32, r.sourceMask = prefixMask n
  destination : ∃ n ≤ 32, r.destinationMask = prefixMask n
  block : r.block = true → r.protocol = 0 ∧ r.port = 0 ∧ r.destinationMask = 0

end FirewallRule

namespace Firewall

/-- The first block rule whose prefix contains the source. -/
def blocking (fw : Firewall) (p : Packet) : Option ℕ :=
  (List.range fw.count).find? fun i ↦ (fw.rules i).block && (fw.rules i).containsSource p

/-- The first ordinary rule that matches. -/
def matching (fw : Firewall) (p : Packet) (direction : ℕ) : Option ℕ :=
  (List.range fw.count).find? fun i ↦ !(fw.rules i).block && (fw.rules i).applies p direction

/-- The rule that decides, if any does. -/
def deciding (fw : Firewall) (p : Packet) (direction : ℕ) : Option ℕ :=
  (fw.blocking p).or (fw.matching p direction)

/-- The policy allows the packet. -/
def Permits (fw : Firewall) (p : Packet) (direction : ℕ) : Prop :=
  fw.enabled = false ∨
    ((∀ i < fw.count, (fw.rules i).block = true → (fw.rules i).containsSource p = false) ∧
      match fw.matching p direction with
      | some i => (fw.rules i).allow = true
      | none => fw.defaults direction = true)

end Firewall

/-! ## What upstream does -/

/-- The documented behaviour of the included parts. -/
structure Upstream.Lawful (u : Upstream) : Prop where
  matchesRule : ∀ r p, u.matchesRule r p = true ↔
    (r.direction = 0 ∨ r.direction = p.direction) ∧ r.family = p.family ∧
    (r.proto = 0 ∨ r.proto = p.proto) ∧ SameBits r.src p.src r.srcBits ∧
    SameBits r.dst p.dst r.dstBits ∧
    ((r.dportLo = 0 ∧ r.dportHi = 0) ∨ (r.dportLo ≤ p.dport ∧ p.dport ≤ r.dportHi))
  count : ∀ i generation counters, i < fwRules + 16 →
    u.count i generation counters = Function.update counters i (counters i + 1)
  ready : u.ready = true
  execute : ∀ m, ∃ steps,
    u.execute m = (⟨true, (jordyosPolicy u m).1, steps⟩, (jordyosPolicy u m).2)

/-! ## Matching one rule -/

theorem bits_prefixMask {n : ℕ} (hn : n ≤ 32) : bits (prefixMask n) = n := by
  have hall : ∀ n : Fin 33, bits (prefixMask n) = n := by decide +kernel
  exact hall ⟨n, by omega⟩

theorem sameBits_bits_iff {x y mask : UInt32} (hmask : ∃ n ≤ 32, mask = prefixMask n) :
    SameBits (netWrite32 Memory.zero 0 x) (netWrite32 Memory.zero 0 y) (bits mask) ↔
      x &&& mask = y &&& mask := by
  obtain ⟨n, hn, rfl⟩ := hmask
  rw [bits_prefixMask hn, and_prefixMask_eq_iff x y hn]

variable {u : Upstream} {fw : Firewall} {p : Packet} {direction : ℕ}

theorem port_iff (port dport : UInt16) :
    (port.toNat = 0 ∧ port.toNat = 0) ∨ (port.toNat ≤ dport.toNat ∧ dport.toNat ≤ port.toNat) ↔
      port = 0 ∨ port = dport := by
  have hzero : (0 : UInt16).toNat = 0 := rfl
  rw [← UInt16.toNat_inj, ← UInt16.toNat_inj]
  omega

theorem protocol_iff (protocol proto : UInt8) :
    (protocol.toNat = 0 ∨ protocol.toNat = proto.toNat) ↔ protocol = 0 ∨ protocol = proto := by
  rw [← UInt8.toNat_inj, ← UInt8.toNat_inj]
  rfl

/-- The matcher decides as the native rule says. -/
theorem matchesRule_serialise (hu : u.Lawful) {r : FirewallRule} (hr : r.Plain) (i : ℕ) :
    u.matchesRule (serialise i r) (describe p direction) =
      if r.block then r.containsSource p else r.applies p direction := by
  rw [Bool.eq_iff_iff, hu.matchesRule]
  have hsource := sameBits_bits_iff (x := r.source) (y := p.source) hr.source
  have hdestination := sameBits_bits_iff (x := r.destination) (y := p.destination) hr.destination
  cases hblock : r.block with
  | true =>
    obtain ⟨hprotocol, hport, hmask⟩ := hr.block hblock
    rw [hmask] at hdestination
    simp only [serialise, describe, hblock, if_true, hprotocol, hport, hsource, hdestination, hmask]
    simp [FirewallRule.containsSource]
  | false =>
    simp only [serialise, describe, hblock, Bool.false_eq_true, if_false, hsource, hdestination,
      port_iff, protocol_iff]
    simp [FirewallRule.applies, FirewallRule.containsSource, FirewallRule.containsDestination, and_assoc]

/-! ## The serialised table -/

/-- The native indexes in the order of the policy map. -/
def Firewall.order (fw : Firewall) : List ℕ :=
  (List.range fw.count).filter (fun i ↦ (fw.rules i).block) ++
    (List.range fw.count).filter fun i ↦ !(fw.rules i).block

theorem foldl_serialiseRound (fw : Firewall) (pass : ℕ) (s : Serial) (l : List ℕ) :
    (l.foldl (serialiseRound fw pass) s).policy =
      Fill.collect (fun i ↦ (fw.rules i).block == decide (pass = 0))
        (fun i ↦ serialise i (fw.rules i)) s.policy l := by
  induction l generalizing s with
  | nil => rfl
  | cons i l ih =>
    rw [List.foldl_cons, ih, Fill.collect_cons]
    congr 1
    unfold serialiseRound
    by_cases hpass : (fw.rules i).block = decide (pass = 0)
    · rw [if_neg (not_not.mpr hpass), if_pos (beq_iff_eq.mpr hpass)]
    · rw [if_pos hpass, if_neg (mt beq_iff_eq.mp hpass)]

theorem prepare_policy (hcount : fw.count ≤ fwRules) (m : Maps) :
    (prepare fw m).policy =
      Fill.collect (fun i ↦ !(fw.rules i).block) (fun i ↦ serialise i (fw.rules i))
        (Fill.collect (fun i ↦ (fw.rules i).block) (fun i ↦ serialise i (fw.rules i))
          ⟨fun _ ↦ {}, 1⟩ (List.range fw.count)) (List.range fw.count) := by
  have hpolicy : (prepare fw m).policy =
      (serialiseTable fw ⟨⟨fun _ ↦ {}, 1⟩, ⟨m.blocks.slots, 0⟩⟩).policy := rfl
  rw [hpolicy, serialiseTable, Nat.min_eq_left hcount, foldl_serialiseRound, foldl_serialiseRound]
  congr 2 <;> funext i <;> cases (fw.rules i).block <;> rfl

theorem length_order (fw : Firewall) : fw.order.length = fw.count := by
  rw [Firewall.order, (List.filter_append_perm _ _).length_eq, List.length_range]

/-- Slot `k + 1` of the policy map holds the rule at place `k` of the order. -/
theorem prepare_slots (hcount : fw.count ≤ fwRules) (m : Maps) {k : ℕ} (hk : k < fw.order.length) :
    (prepare fw m).policy.slots (k + 1) = serialise fw.order[k] (fw.rules fw.order[k]) := by
  rw [prepare_policy hcount, Nat.add_comm k 1]
  exact Fill.collect_collect_slots (fun i ↦ (fw.rules i).block) (fun i ↦ serialise i (fw.rules i))
    (fun i ↦ !(fw.rules i).block) ⟨fun _ ↦ {}, 1⟩ (List.range fw.count) (List.range fw.count) hk

/-! ## The program -/

/-- The policy map of `m` holds exactly `rules`. -/
structure Maps.Holds (m : Maps) (rules : List Rule) : Prop where
  count : m.header.count = rules.length
  le : rules.length ≤ fwRules
  slots : ∀ k (hk : k < rules.length), m.policy.slots (k + 1) = rules[k]

/-- The outcome of the program for the rule it found. -/
def outcome (u : Upstream) (m : Maps) : Option Rule → ℕ × (ℕ → UInt64)
  | some r => (r.action, u.count r.index m.header.generation m.counters)
  | none => (m.header.defaults (m.metadata.direction - 1), m.counters)

/-- The loop from round `j` on finds the first rule from place `j` on that matches. -/
theorem policyLoop_eq {m : Maps} {rules : List Rule} (h : m.Holds rules) (n j : ℕ)
    (hrounds : rules.length ≤ j + n) : policyLoop u m (List.range' j n) =
      some (outcome u m ((rules.drop j).find? fun r ↦ u.matchesRule r m.metadata)) := by
  induction n generalizing j with
  | zero =>
    rw [Nat.add_zero] at hrounds
    rw [List.drop_eq_nil_of_le hrounds]
    rfl
  | succ n ih =>
    rw [List.range'_succ, policyLoop, h.count]
    by_cases hj : j ≥ rules.length
    · rw [if_pos hj, List.drop_eq_nil_of_le hj]
      rfl
    · have hlt : j < rules.length := Nat.lt_of_not_le hj
      have hlookup : policyLookup m (j + 1) = some rules[j] := by
        rw [policyLookup, if_pos (by have := h.le; omega), h.slots j hlt]
      rw [if_neg hj, hlookup, List.drop_eq_getElem_cons hlt, List.find?_cons]
      cases hmatch : u.matchesRule rules[j] m.metadata with
      | true => simp only [hmatch, if_true, outcome]
      | false =>
        simp only [hmatch, Bool.false_eq_true, if_false]
        exact ih (j + 1) (by omega)

/-- What the program computes on maps that hold a table. -/
theorem jordyosPolicy_eq {m : Maps} {rules : List Rule} (h : m.Holds rules)
    (henabled : m.enabled = true) (hready : m.header.ready = 1) (hschema : m.header.schema = 2)
    (hdirection : m.metadata.direction = 1 ∨ m.metadata.direction = 2) :
    jordyosPolicy u m =
      (if (outcome u m (rules.find? fun r ↦ u.matchesRule r m.metadata)).1 = allowAction then 2 else 1,
        (outcome u m (rules.find? fun r ↦ u.matchesRule r m.metadata)).2) := by
  have hloop := policyLoop_eq (u := u) h fwRules 0 (by have := h.le; omega)
  have hcount := h.count
  have hle := h.le
  rw [jordyosPolicy, henabled, if_neg (by decide), if_neg (by omega), List.range_eq_range', hloop]
  rfl

/-- The rules `prepare` writes. -/
def Firewall.serialised (fw : Firewall) : List Rule :=
  fw.order.map fun i ↦ serialise i (fw.rules i)

theorem prepare_holds (hcount : fw.count ≤ fwRules) (m : Maps) (metadata : Metadata) :
    Maps.Holds { prepare fw m with metadata := metadata } fw.serialised where
  count := by rw [Firewall.serialised, List.length_map, length_order]; rfl
  le := by rw [Firewall.serialised, List.length_map, length_order]; exact hcount
  slots k hk := by
    rw [Firewall.serialised, List.length_map] at hk
    simp only [Firewall.serialised, List.getElem_map]
    exact prepare_slots hcount m hk

/-- Among the rules in the order of the map the program finds the deciding one. -/
theorem find?_serialised (hu : u.Lawful) (hplain : ∀ i < fw.count, (fw.rules i).Plain) :
    (fw.serialised.find? fun r ↦ u.matchesRule r (describe p direction)) =
      (fw.deciding p direction).map fun i ↦ serialise i (fw.rules i) := by
  rw [Firewall.serialised, List.find?_map]
  congr 1
  rw [Firewall.order, List.find?_append, List.find?_filter, List.find?_filter]
  unfold Firewall.deciding Firewall.blocking Firewall.matching
  congr 1
  · refine List.find?_congr fun i hi ↦ ?_
    rw [Function.comp_apply, matchesRule_serialise hu (hplain i (List.mem_range.mp hi)) i]
    cases (fw.rules i).block <;> simp
  · refine List.find?_congr fun i hi ↦ ?_
    rw [Function.comp_apply, matchesRule_serialise hu (hplain i (List.mem_range.mp hi)) i]
    cases (fw.rules i).block <;> simp

/-! ## Evaluation -/

/-- The counters after a run in which the rule `i` decided. -/
def hitCounters (i : Option ℕ) : ℕ → UInt64 := fun j ↦ if i = some j then 1 else 0

theorem addHits_rules (fw : Firewall) (counters : ℕ → UInt64) (hcount : fw.count ≤ fwRules) (i : ℕ) :
    (addHits fw counters).rules i = if i < fw.count then
      { fw.rules i with hits := (fw.rules i).hits + (counters i).toUInt32 } else fw.rules i := by
  rw [addHits, Nat.min_eq_left hcount]
  dsimp only
  induction fw.count with
  | zero => rfl
  | succ n ih =>
    rw [List.range_succ, List.foldl_append, List.foldl_cons, List.foldl_nil]
    by_cases hi : i = n
    · rw [hi] at ih ⊢
      rw [Function.update_self, ih, if_neg (Nat.lt_irrefl n), if_pos (Nat.lt_succ_self n)]
    · rw [Function.update_of_ne hi, ih]
      congr 1
      exact propext (by omega)

/-- The verdict in terms of the deciding rule. -/
def Firewall.allows (fw : Firewall) (p : Packet) (direction : ℕ) : Bool :=
  !fw.enabled || match fw.deciding p direction with
    | some i => !(fw.rules i).block && (fw.rules i).allow
    | none => fw.defaults direction

theorem deciding_lt {i : ℕ} (h : fw.deciding p direction = some i) : i < fw.count := by
  unfold Firewall.deciding at h
  rcases Option.or_eq_some_iff.mp h with hblock | ⟨-, hother⟩
  · exact List.mem_range.mp (List.mem_of_find?_eq_some hblock)
  · exact List.mem_range.mp (List.mem_of_find?_eq_some hother)

/-- Only an ordinary rule that allows is written as an allow. -/
theorem action_serialise (i : ℕ) (r : FirewallRule) :
    (serialise i r).action = allowAction ↔ (!r.block && r.allow) = true := by
  change (if r.block then 5 else if r.allow then 1 else 2) = 1 ↔ _
  cases r.block <;> cases r.allow <;> decide

/-- What the program makes of the deciding rule. -/
theorem outcome_prepare (hu : u.Lawful) (hcount : fw.count ≤ fwRules)
    (hout : direction = 0 ∨ direction = 1) (m : Maps) :
    let maps := { prepare fw m with metadata := describe p direction }
    let result := outcome u maps ((fw.deciding p direction).map fun i ↦ serialise i (fw.rules i))
    (if result.1 = allowAction then (2 : UInt64) else 1, result.2) =
      (if (match fw.deciding p direction with
        | some i => !(fw.rules i).block && (fw.rules i).allow
        | none => fw.defaults direction) then 2 else 1, hitCounters (fw.deciding p direction)) := by
  intro maps result
  have hresult : result = outcome u maps
    ((fw.deciding p direction).map fun i ↦ serialise i (fw.rules i)) := rfl
  cases hdeciding : fw.deciding p direction with
  | none =>
    rw [hdeciding] at hresult
    have hlt : direction < 2 := by omega
    have hdefault : result.1 = if fw.defaults direction then 1 else 2 := by
      rw [hresult]
      exact if_pos hlt
    have hcounters : result.2 = hitCounters none := by
      rw [hresult]
      rfl
    rw [hcounters, hdefault]
    cases fw.defaults direction <;> rfl
  | some i =>
    rw [hdeciding] at hresult
    have hi : i < fwRules + 16 := by
      have := deciding_lt hdeciding
      omega
    have haction : result.1 = (serialise i (fw.rules i)).action := by
      rw [hresult]
      rfl
    have hcounters : result.2 = hitCounters (some i) := by
      rw [hresult]
      change u.count i 1 (fun _ ↦ 0) = _
      rw [hu.count i 1 _ hi]
      funext j
      by_cases hj : j = i
      · rw [hj, Function.update_self, hitCounters, if_pos rfl]
        rfl
      · rw [Function.update_of_ne hj, hitCounters, if_neg fun h ↦ hj (Option.some.inj h).symm]
    rw [hcounters, haction]
    simp only [action_serialise]

/-- The program on the maps `prepare` writes. -/
theorem jordyosPolicy_prepare (hu : u.Lawful) (hcount : fw.count ≤ fwRules)
    (hplain : ∀ i < fw.count, (fw.rules i).Plain) (hdirection : direction ≤ fwOut) (m : Maps) :
    jordyosPolicy u { prepare fw m with metadata := describe p direction } =
      (if fw.allows p direction then 2 else 1,
        hitCounters (if fw.enabled then fw.deciding p direction else none)) := by
  cases henabled : fw.enabled with
  | false =>
    have hoff : (prepare fw m).enabled = false := henabled
    rw [jordyosPolicy, if_pos hoff]
    simp only [Firewall.allows, henabled]
    rfl
  | true =>
    have hout : direction = 0 ∨ direction = 1 := by
      have hone : fwOut = 1 := rfl
      omega
    rw [jordyosPolicy_eq (prepare_holds hcount m _) henabled rfl rfl
      (hout.imp (fun h ↦ congrArg Nat.succ h) fun h ↦ congrArg Nat.succ h),
      find?_serialised hu hplain]
    rw [outcome_prepare hu hcount hout, Firewall.allows, henabled, Bool.not_true, Bool.false_or,
      if_pos rfl]

theorem fwBpfPolicy_eq (hu : u.Lawful) {s : System} (hcount : s.fw.count ≤ fwRules)
    (hplain : ∀ i < s.fw.count, (s.fw.rules i).Plain) (hdirection : direction ≤ fwOut) :
    (fwBpfPolicy u s p direction).1 = s.fw.allows p direction ∧
      (fwBpfPolicy u s p direction).2.fw = addHits s.fw (hitCounters
        (if s.fw.enabled then s.fw.deciding p direction else none)) := by
  obtain ⟨steps, hexecute⟩ := hu.execute
    { prepare s.fw s.maps with metadata := describe p direction }
  rw [jordyosPolicy_prepare hu hcount hplain hdirection] at hexecute
  have hready : ¬ (u.ready = false ∨ s.fw.count > fwRules) := by
    rw [hu.ready]
    simpa using hcount
  rw [fwBpfPolicy, if_neg hready]
  simp only [hexecute, finish]
  cases s.fw.allows p direction with
  | true => exact ⟨rfl, rfl⟩
  | false => exact ⟨rfl, rfl⟩

/-! ## Tables built by commands -/

/-- The operations that build a table. -/
inductive Op
  | add (rule : FirewallRule)
  | delete (number : ℕ)
  | reset

def operate (fw : Firewall) : Op → Firewall
  | .add rule => (fwAdd fw rule).2
  | .delete number => (fwDelete fw number).2
  | .reset => fwReset

/-- A table built from plain rules holds plain rules. -/
theorem all_run {predicate : FirewallRule → Prop} (ops : List Op)
    (hadd : ∀ rule, .add rule ∈ ops → predicate { rule with hits := 0 }) :
    (run operate fwReset ops).All predicate := by
  refine run_invariant_of_mem operate (fun fw ↦ fw.All predicate) all_fwReset ?_
  intro fw op hop h
  cases op with
  | add rule => exact h.fwAdd fun _ ↦ hadd rule hop
  | delete number => exact h.fwDelete number
  | reset => exact all_fwReset

theorem permits_iff : fw.Permits p direction ↔ fw.allows p direction = true := by
  unfold Firewall.Permits Firewall.allows Firewall.deciding
  cases henabled : fw.enabled with
  | false => simp
  | true =>
    cases hblocking : fw.blocking p with
    | some i =>
      have hfound := List.find?_some hblocking
      have hi := List.mem_range.mp (List.mem_of_find?_eq_some hblocking)
      rw [Bool.and_eq_true] at hfound
      have hcontained : ¬ ∀ i < fw.count,
          (fw.rules i).block = true → (fw.rules i).containsSource p = false :=
        fun h ↦ Bool.false_ne_true ((h i hi hfound.1).symm.trans hfound.2)
      simp [hcontained, hfound.1]
    | none =>
      have hclear : ∀ i < fw.count,
          (fw.rules i).block = true → (fw.rules i).containsSource p = false := by
        intro i hi hblock
        have hnot := List.find?_eq_none.mp hblocking i (List.mem_range.mpr hi)
        rw [hblock, Bool.true_and] at hnot
        exact Bool.eq_false_of_not_eq_true hnot
      rw [Option.none_or, and_iff_right hclear]
      cases hmatching : fw.matching p direction with
      | none => simp
      | some i =>
        have hfound := List.find?_some hmatching
        rw [Bool.and_eq_true, Bool.not_eq_true'] at hfound
        simp [hfound.1]

/-- For every table built from plain rules, every setting and packet, the answer is the policy's, and
exactly the deciding rule counts a hit. -/
theorem fwAccept_verdict (u : Upstream) (hu : u.Lawful) (ops : List Op)
    (hplain : ∀ rule, .add rule ∈ ops → rule.Plain) (enabled : Bool) (defaults : ℕ → Bool)
    (maps : Maps) (stats : FirewallBpfStats) (p : Packet) (direction : ℕ)
    (hdirection : direction ≤ fwOut) :
    let fw := { run operate fwReset ops with enabled := enabled, defaults := defaults }
    let after := fwAccept u ⟨fw, maps, stats⟩ p direction
    (after.1 = true ↔ fw.Permits p direction) ∧
    after.2.fw.count = fw.count ∧
    ∀ i < fw.count, after.2.fw.rules i =
      if enabled = true ∧ fw.deciding p direction = some i
      then { fw.rules i with hits := (fw.rules i).hits + 1 } else fw.rules i := by
  intro fw after
  have htable : (run operate fwReset ops).All FirewallRule.Plain :=
    all_run ops fun rule hrule ↦
      ⟨(hplain rule hrule).source, (hplain rule hrule).destination, (hplain rule hrule).block⟩
  have hcount : fw.count ≤ fwRules := htable.1
  obtain ⟨hanswer, hfw⟩ := fwBpfPolicy_eq (p := p) (s := ⟨fw, maps, stats⟩) hu hcount htable.2 hdirection
  have hbranch : ¬ direction > fwOut := Nat.not_lt.mpr hdirection
  have hafter : after.1 = (fwBpfPolicy u ⟨fw, maps, stats⟩ p direction).1 ∧
      after.2.fw.count = (fwBpfPolicy u ⟨fw, maps, stats⟩ p direction).2.fw.count ∧
      after.2.fw.rules = (fwBpfPolicy u ⟨fw, maps, stats⟩ p direction).2.fw.rules := by
    have heq : after = fwAccept u ⟨fw, maps, stats⟩ p direction := rfl
    rw [heq, fwAccept, if_neg hbranch]
    exact ⟨rfl, rfl, rfl⟩
  obtain ⟨hallow, hsame, hrules⟩ := hafter
  refine ⟨by rw [hallow, hanswer, permits_iff], by rw [hsame, hfw]; rfl, fun i hi ↦ ?_⟩
  rw [hrules, hfw, addHits_rules fw _ hcount, if_pos hi]
  have hdecided : (if fw.enabled then fw.deciding p direction else none) = some i ↔
      enabled = true ∧ fw.deciding p direction = some i := by
    change (if enabled = true then fw.deciding p direction else none) = some i ↔ _
    cases enabled <;> simp
  by_cases hhit : enabled = true ∧ fw.deciding p direction = some i
  · rw [if_pos hhit, hitCounters, if_pos (hdecided.mpr hhit)]
    rfl
  · rw [if_neg hhit, hitCounters, if_neg (mt hdecided.mp hhit)]
    change { fw.rules i with hits := (fw.rules i).hits + 0 } = fw.rules i
    rw [UInt32.add_zero]

/-! ### A blocked source -/

/-- The documented matcher, written out. -/
def matchesMetadata (r : Rule) (p : Metadata) : Bool :=
  (r.direction == 0 || r.direction == p.direction) && r.family == p.family &&
    (r.proto == 0 || r.proto == p.proto) &&
    (List.range r.srcBits).all (fun b ↦ addressBit r.src b == addressBit p.src b) &&
    (List.range r.dstBits).all (fun b ↦ addressBit r.dst b == addressBit p.dst b) &&
    ((r.dportLo == 0 && r.dportHi == 0) || (r.dportLo ≤ p.dport && p.dport ≤ r.dportHi))

def reference : Upstream :=
  let helpers : Upstream :=
    { matchesRule := matchesMetadata
      count := fun i _ counters ↦ Function.update counters i (counters i + 1)
      ready := true
      execute := fun m ↦ (⟨false, 0, 0⟩, m.counters) }
  { helpers with
    execute := fun m ↦ (⟨true, (jordyosPolicy helpers m).1, 0⟩, (jordyosPolicy helpers m).2) }

theorem reference_lawful : reference.Lawful where
  matchesRule r p := by
    change matchesMetadata r p = true ↔ _
    simp [matchesMetadata, SameBits, and_assoc]
  count _ _ _ _ := rfl
  ready := rfl
  execute _ := ⟨0, rfl⟩

/-- Everything that comes in over TCP is allowed, then 10.0.0.0/8 is blocked. -/
def blockedTable : List Op :=
  [.add { protocol := 6, allow := true },
    .add { source := 0x0a000000, sourceMask := 0xff000000, block := true }]

theorem plain_of_mem_blockedTable (rule : FirewallRule) (h : .add rule ∈ blockedTable) : rule.Plain := by
  simp only [blockedTable, List.mem_cons, Op.add.injEq, List.not_mem_nil, or_false] at h
  rcases h with rfl | rfl
  · exact ⟨⟨0, by decide, rfl⟩, ⟨0, by decide, rfl⟩, fun h ↦ absurd h (by decide)⟩
  · exact ⟨⟨8, by decide, rfl⟩, ⟨0, by decide, rfl⟩, fun _ ↦ ⟨rfl, rfl, rfl⟩⟩

/-- The block decides although it stands second. -/
theorem fwAccept_verdict_blockedTable :
    (fwAccept reference ⟨{ run operate fwReset blockedTable with enabled := true }, Maps.zero, {}⟩
      ⟨0x0a000001, 0, 0, 0, 40, netTcp⟩ 0).1 = false := by
  have hverdict := (fwAccept_verdict reference reference_lawful blockedTable plain_of_mem_blockedTable
    true (run operate fwReset blockedTable).defaults Maps.zero {} ⟨0x0a000001, 0, 0, 0, 40, netTcp⟩ 0
    (by decide)).1
  refine Bool.eq_false_of_not_eq_true fun hallow ↦ ?_
  rcases hverdict.mp hallow with hoff | ⟨hclear, -⟩
  · exact absurd hoff (by decide)
  · exact absurd (hclear 1 (by decide) rfl) (by decide)

end JordyOS.Policy
