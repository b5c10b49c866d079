import JordyOS.Policy.Verdict

/-!
# The order of the policy map

What `prepare` writes, in terms of the native table: its entries are the rules in a stable order, the
block rules first, and the source prefixes of the early map stand side by side with the block entries.
-/

namespace JordyOS.Policy

open Machine Net

variable {fw : Firewall}

/-! ## Entries -/

/-- An address of the policy map: four bytes in network order, the other twelve are zero. -/
def BigEndian (address : Memory) (n : UInt32) : Prop :=
  (∀ k < 4, (address k).toNat = n.toNat / 256 ^ (3 - k) % 256) ∧ ∀ k, 4 ≤ k → address k = 0

/-- The entry stands for the native rule at place `i`. -/
structure Rule.Encodes (r : Rule) (i : ℕ) (native : FirewallRule) : Prop where
  index : r.index = i
  action : r.action = if native.block then 5 else if native.allow then 1 else 2
  direction : r.direction = if native.block then 0 else native.direction.toNat + 1
  family : r.family = 4
  proto : r.proto = native.protocol.toNat
  source : r.srcBits ≤ 32 ∧ native.sourceMask = prefixMask r.srcBits
  destination : r.dstBits ≤ 32 ∧ native.destinationMask = prefixMask r.dstBits
  src : BigEndian r.src native.source
  dst : BigEndian r.dst native.destination
  port : r.dportLo = native.port.toNat ∧ r.dportHi = native.port.toNat

/-- The entry of the early map stands for the source prefix of the native rule at place `i`. -/
structure LpmEntry.Encodes (entry : LpmEntry) (i : ℕ) (native : FirewallRule) : Prop where
  index : entry.index = i
  source : entry.prefixLen ≤ 32 ∧ native.sourceMask = prefixMask entry.prefixLen
  address : BigEndian entry.address native.source

/-- Both masks are leading ones. -/
def FirewallRule.Contiguous (r : FirewallRule) : Prop :=
  (∃ n ≤ 32, r.sourceMask = prefixMask n) ∧ ∃ n ≤ 32, r.destinationMask = prefixMask n

theorem bigEndian_netWrite32 (n : UInt32) : BigEndian (netWrite32 Memory.zero 0 n) n := by
  refine ⟨fun k hk ↦ ?_, fun k hk ↦ netWrite32_of_ne Memory.zero n (Or.inr (by omega))⟩
  have hshift : 24 - 8 * k = 8 * (3 - k) := by omega
  have hpower : 256 ^ (3 - k) = 2 ^ (8 * (3 - k)) := by
    rw [pow_mul]
    rfl
  rw [toNat_netWrite32 n hk, hshift, hpower]
  rfl

theorem bits_contiguous {mask : UInt32} (hmask : ∃ n ≤ 32, mask = prefixMask n) :
    bits mask ≤ 32 ∧ mask = prefixMask (bits mask) := by
  obtain ⟨n, hn, rfl⟩ := hmask
  rw [bits_prefixMask hn]
  exact ⟨hn, rfl⟩

theorem encodes_serialise {native : FirewallRule} (h : native.Contiguous) (i : ℕ) :
    (serialise i native).Encodes i native where
  index := rfl
  action := rfl
  direction := rfl
  family := rfl
  proto := rfl
  source := bits_contiguous h.1
  destination := bits_contiguous h.2
  src := bigEndian_netWrite32 native.source
  dst := bigEndian_netWrite32 native.destination
  port := ⟨rfl, rfl⟩

/-- The entry of the early map for the native rule at place `i`. -/
def earlyEntry (fw : Firewall) (i : ℕ) : LpmEntry :=
  ⟨bits (fw.rules i).sourceMask, netWrite32 Memory.zero 0 (fw.rules i).source, i⟩

theorem encodes_earlyEntry {i : ℕ} (h : (fw.rules i).Contiguous) :
    (earlyEntry fw i).Encodes i (fw.rules i) where
  index := rfl
  source := bits_contiguous h.1
  address := bigEndian_netWrite32 (fw.rules i).source

/-! ## The two passes -/

/-- The places of the block rules, in table order. -/
def Firewall.blockPlaces (fw : Firewall) : List ℕ :=
  (List.range fw.count).filter fun i ↦ (fw.rules i).block

/-- The places of the ordinary rules, in table order. -/
def Firewall.ordinaryPlaces (fw : Firewall) : List ℕ :=
  (List.range fw.count).filter fun i ↦ !(fw.rules i).block

/-- Only the first pass writes to the early map. -/
theorem foldl_serialiseRound_blocks (fw : Firewall) (pass : ℕ) (s : Serial) (l : List ℕ) :
    (l.foldl (serialiseRound fw pass) s).blocks =
      Fill.collect (fun i ↦ decide (pass = 0) && (fw.rules i).block) (earlyEntry fw) s.blocks l := by
  induction l generalizing s with
  | nil => rfl
  | cons i l ih =>
    rw [List.foldl_cons, ih, Fill.collect_cons]
    congr 1
    unfold serialiseRound
    cases hblock : (fw.rules i).block with
    | true =>
      by_cases hpass : pass = 0
      · rw [decide_eq_true hpass, if_neg (not_not.mpr rfl)]
        simp [earlyEntry, serialise]
      · rw [decide_eq_false hpass, if_pos (by decide)]
        rfl
    | false =>
      rw [Bool.and_false]
      split <;> rfl

theorem prepare_blocks (hcount : fw.count ≤ fwRules) (m : Maps) :
    (prepare fw m).blocks =
      Fill.collect (fun _ ↦ false) (earlyEntry fw)
        (Fill.collect (fun i ↦ (fw.rules i).block) (earlyEntry fw) ⟨m.blocks.slots, 0⟩
          (List.range fw.count)) (List.range fw.count) := by
  have hblocks : (prepare fw m).blocks =
      (serialiseTable fw ⟨⟨fun _ ↦ {}, 1⟩, ⟨m.blocks.slots, 0⟩⟩).blocks := rfl
  rw [hblocks, serialiseTable, Nat.min_eq_left hcount, foldl_serialiseRound_blocks,
    foldl_serialiseRound_blocks]
  rfl

theorem prepare_blocks_used (hcount : fw.count ≤ fwRules) (m : Maps) :
    (prepare fw m).blocks.used = fw.blockPlaces.length := by
  rw [prepare_blocks hcount, Fill.collect_used, Fill.collect_used, List.filter_false, List.length_nil,
    Nat.add_zero, Nat.zero_add]
  rfl

/-- Slot `k` of the early map holds the prefix of the block rule at place `k` of the order. -/
theorem prepare_blocks_slots (hcount : fw.count ≤ fwRules) (m : Maps) {k : ℕ}
    (hk : k < fw.blockPlaces.length) :
    (prepare fw m).blocks.slots k = earlyEntry fw fw.blockPlaces[k] := by
  have hused : k < (Fill.collect (fun i ↦ (fw.rules i).block) (earlyEntry fw) ⟨m.blocks.slots, 0⟩
      (List.range fw.count)).used := by
    rw [Fill.collect_used, Nat.zero_add]
    exact hk
  rw [prepare_blocks hcount, Fill.collect_slots_of_lt _ _ _ _ hused]
  have hslot := Fill.collect_slots (fun i ↦ (fw.rules i).block) (earlyEntry fw) ⟨m.blocks.slots, 0⟩
    (List.range fw.count) hk
  rw [Nat.zero_add] at hslot
  exact hslot

theorem prepare_policy_used (hcount : fw.count ≤ fwRules) (m : Maps) :
    (prepare fw m).policy.used = fw.count + 1 := by
  have hlength := length_order fw
  rw [Firewall.order, List.length_append] at hlength
  rw [prepare_policy hcount, Fill.collect_used, Fill.collect_used]
  dsimp only
  omega

/-- The order keeps every rule once, and within either kind the order of the table. -/
theorem order_partition (fw : Firewall) :
    fw.order.Perm (List.range fw.count) ∧ fw.order = fw.blockPlaces ++ fw.ordinaryPlaces ∧
    (∀ i ∈ fw.blockPlaces, (fw.rules i).block = true) ∧
    (∀ i ∈ fw.ordinaryPlaces, (fw.rules i).block = false) ∧
    fw.blockPlaces.Pairwise (· < ·) ∧ fw.ordinaryPlaces.Pairwise (· < ·) := by
  refine ⟨List.filter_append_perm _ _, rfl, fun i hi ↦ (List.mem_filter.mp hi).2, fun i hi ↦ ?_,
    List.pairwise_lt_range.filter _, List.pairwise_lt_range.filter _⟩
  exact (Bool.not_eq_true' _).mp (List.mem_filter.mp hi).2

/-- What `prepare` writes for a table: a stable partition of the rules into block rules and ordinary
rules, each encoded exactly, with the source prefixes of the block rules in the early map. -/
theorem prepare_partition (fw : Firewall) (m : Maps) (hcount : fw.count ≤ fwRules)
    (hmasks : ∀ i < fw.count, (fw.rules i).Contiguous) :
    (fw.order.Perm (List.range fw.count) ∧ fw.order = fw.blockPlaces ++ fw.ordinaryPlaces ∧
      (∀ i ∈ fw.blockPlaces, (fw.rules i).block = true) ∧
      (∀ i ∈ fw.ordinaryPlaces, (fw.rules i).block = false) ∧
      fw.blockPlaces.Pairwise (· < ·) ∧ fw.ordinaryPlaces.Pairwise (· < ·)) ∧
    (prepare fw m).policy.used = fw.count + 1 ∧
    (∀ k (hk : k < fw.order.length),
      ((prepare fw m).policy.slots (k + 1)).Encodes fw.order[k] (fw.rules fw.order[k])) ∧
    (prepare fw m).header.count = fw.count ∧ (prepare fw m).header.blocks = fw.blockPlaces.length ∧
    (prepare fw m).blocks.used = fw.blockPlaces.length ∧
    ∀ k (hk : k < fw.blockPlaces.length),
      ((prepare fw m).blocks.slots k).Encodes fw.blockPlaces[k] (fw.rules fw.blockPlaces[k]) ∧
      ((prepare fw m).blocks.slots k).index = ((prepare fw m).policy.slots (k + 1)).index ∧
      ((prepare fw m).blocks.slots k).prefixLen = ((prepare fw m).policy.slots (k + 1)).srcBits ∧
      ((prepare fw m).blocks.slots k).address = ((prepare fw m).policy.slots (k + 1)).src := by
  have hplaces : ∀ i ∈ fw.order, (fw.rules i).Contiguous := fun i hi ↦
    hmasks i (List.mem_range.mp ((order_partition fw).1.mem_iff.mp hi))
  refine ⟨order_partition fw, prepare_policy_used hcount m, fun k hk ↦ ?_, rfl,
    prepare_blocks_used hcount m, prepare_blocks_used hcount m, fun k hk ↦ ?_⟩
  · rw [prepare_slots hcount m hk]
    exact encodes_serialise (hplaces _ (List.getElem_mem hk)) _
  · have hplace : k < fw.order.length := by
      rw [(order_partition fw).2.1, List.length_append]
      omega
    have hsame : fw.order[k] = fw.blockPlaces[k] := List.getElem_append_left hk
    rw [prepare_slots hcount m hplace, prepare_blocks_slots hcount m hk, hsame]
    refine ⟨encodes_earlyEntry (hplaces _ ?_), rfl, rfl, rfl⟩
    rw [← hsame]
    exact List.getElem_mem hplace

/-- An ordinary rule between two block rules. -/
def mixedTable : Firewall :=
  let network : FirewallRule := { source := 0x0a000000, sourceMask := 0xff000000, block := true }
  (fwAdd (fwAdd (fwAdd fwReset network).2 { port := 80, protocol := netTcp, allow := true }).2 network).2

theorem prepare_partition_mixedTable : mixedTable.order = [0, 2, 1] ∧
    ((prepare mixedTable Maps.zero).policy.slots 3).Encodes 1 (mixedTable.rules 1) ∧
    ((prepare mixedTable Maps.zero).blocks.slots 1).Encodes 2 (mixedTable.rules 2) := by
  have hmasks : ∀ i < mixedTable.count, (mixedTable.rules i).Contiguous := by
    intro i hi
    have hthree : i < 3 := hi
    have hcases : i = 0 ∨ i = 1 ∨ i = 2 := by omega
    rcases hcases with rfl | rfl | rfl
    · exact ⟨⟨8, by decide, by decide⟩, ⟨0, by decide, by decide⟩⟩
    · exact ⟨⟨0, by decide, by decide⟩, ⟨0, by decide, by decide⟩⟩
    · exact ⟨⟨8, by decide, by decide⟩, ⟨0, by decide, by decide⟩⟩
  obtain ⟨-, -, hentries, -, -, -, hblocks⟩ := prepare_partition mixedTable Maps.zero (by decide) hmasks
  exact ⟨by decide, hentries 2 (by decide), (hblocks 1 (by decide)).1⟩

end JordyOS.Policy
