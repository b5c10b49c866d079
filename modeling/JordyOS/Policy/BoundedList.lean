import JordyOS.Machine.Simulation
import JordyOS.Policy.Adapter

/-!
# The rule table as a bounded list

The visible table is the list of the first `count` rules of the array.  Every history of resets, adds,
deletes and evaluations changes it as a list of at most 32 legal rules changes; what the array holds
behind the count never shows.
-/

namespace JordyOS.Policy

open Machine Net Bpf

/-! ## The list -/

/-- What `fw_add` accepts as a rule. -/
structure FirewallRule.Legal (rule : FirewallRule) : Prop where
  direction : rule.direction.toNat ≤ fwOut
  protocol : rule.protocol = 0 ∨ rule.protocol = netIcmp ∨ rule.protocol = netTcp ∨ rule.protocol = netUdp
  port : rule.port ≠ 0 → rule.protocol = netTcp ∨ rule.protocol = netUdp

/-- A rule that has not been hit. -/
def FirewallRule.fresh (rule : FirewallRule) : FirewallRule := { rule with hits := 0 }

/-- The calls that touch the table. -/
inductive TableCall
  | reset
  | add (rule : FirewallRule)
  | delete (number : ℕ)
  | accept (p : Packet) (direction : ℕ)

/-- What the calls do to a list of at most 32 rules, and what they answer. -/
inductive BoundedList : List FirewallRule → TableCall → Bool → List FirewallRule → Prop
  | reset (rules : List FirewallRule) : BoundedList rules .reset true []
  | append {rules : List FirewallRule} {rule : FirewallRule} (room : rules.length < fwRules)
      (legal : rule.Legal) : BoundedList rules (.add rule) true (rules ++ [rule.fresh])
  | notAppended {rules : List FirewallRule} {rule : FirewallRule}
      (refused : ¬ (rules.length < fwRules ∧ rule.Legal)) : BoundedList rules (.add rule) false rules
  | remove {rules : List FirewallRule} {number : ℕ} (present : 1 ≤ number ∧ number ≤ rules.length) :
      BoundedList rules (.delete number) true (rules.eraseIdx (number - 1))
  | notRemoved {rules : List FirewallRule} {number : ℕ} (absent : ¬ (1 ≤ number ∧ number ≤ rules.length)) :
      BoundedList rules (.delete number) false rules
  | accept {rules after : List FirewallRule} {p : Packet} {direction : ℕ} (verdict : Bool)
      (same : after.map FirewallRule.fresh = rules.map FirewallRule.fresh) :
      BoundedList rules (.accept p direction) verdict after

/-! ## The table -/

/-- The rules in the table. -/
def Firewall.table (fw : Firewall) : List FirewallRule :=
  (List.range fw.count).map fw.rules

/-- The answer of a call, true for a reset, and the system after it. -/
def TableCall.perform (u : Upstream) (s : System) : TableCall → Bool × System
  | .reset => (true, { s with fw := fwReset })
  | .add rule => ((fwAdd s.fw rule).1, { s with fw := (fwAdd s.fw rule).2 })
  | .delete number => ((fwDelete s.fw number).1, { s with fw := (fwDelete s.fw number).2 })
  | .accept p direction => fwAccept u s p direction

variable {fw : Firewall} {rule : FirewallRule} {number direction : ℕ}

theorem length_table (fw : Firewall) : fw.table.length = fw.count := by
  rw [Firewall.table, List.length_map, List.length_range]

theorem getElem?_table (fw : Firewall) (i : ℕ) :
    fw.table[i]? = if i < fw.count then some (fw.rules i) else none := by
  unfold Firewall.table
  rw [List.getElem?_map]
  by_cases hi : i < fw.count
  · rw [List.getElem?_range hi, if_pos hi]
    rfl
  · rw [List.getElem?_eq_none (by rwa [List.length_range, ← Nat.not_lt]), if_neg hi]
    rfl

/-- The checks of `fw_add` are those of a legal rule and a free slot. -/
theorem fwAdd_of_legal (hroom : fw.count < fwRules) (hlegal : rule.Legal) :
    (fwAdd fw rule).1 = true ∧ (fwAdd fw rule).2.table = fw.table ++ [rule.fresh] := by
  have hpasses : ¬ (fw.count ≥ fwRules ∨ rule.direction.toNat > fwOut ∨
      (rule.protocol ≠ 0 ∧ rule.protocol ≠ netIcmp ∧ rule.protocol ≠ netTcp ∧ rule.protocol ≠ netUdp) ∨
      (rule.port ≠ 0 ∧ rule.protocol ≠ netTcp ∧ rule.protocol ≠ netUdp)) := by
    rintro (hfull | hdirection | ⟨hzero, hicmp, htcp, hudp⟩ | ⟨hport, htcp, hudp⟩)
    · exact Nat.not_lt.mpr hfull hroom
    · exact Nat.not_lt.mpr hlegal.direction hdirection
    · exact hlegal.protocol.elim hzero fun h ↦ h.elim hicmp fun h ↦ h.elim htcp hudp
    · exact (hlegal.port hport).elim htcp hudp
  unfold fwAdd
  rw [if_neg hpasses]
  refine ⟨rfl, List.ext_getElem? fun i ↦ ?_⟩
  rw [getElem?_table, List.getElem?_append, length_table, getElem?_table]
  change (if i < fw.count + 1 then some (Function.update fw.rules fw.count _ i) else none) = _
  rcases Nat.lt_trichotomy i fw.count with hlt | rfl | hgt
  · rw [if_pos (by omega), if_pos hlt, if_pos hlt, Function.update_of_ne (Nat.ne_of_lt hlt)]
  · rw [if_pos (Nat.lt_succ_self _), Function.update_self, if_neg (Nat.lt_irrefl _), Nat.sub_self]
    rfl
  · rw [if_neg (by omega), if_neg (by omega), List.getElem?_eq_none]
    change 1 ≤ i - fw.count
    omega

theorem fwAdd_of_not_legal (hrefused : ¬ (fw.count < fwRules ∧ rule.Legal)) :
    fwAdd fw rule = (false, fw) := by
  unfold fwAdd
  refine if_pos ?_
  by_contra hpasses
  obtain ⟨hroom, hpasses⟩ := not_or.mp hpasses
  obtain ⟨hdirection, hpasses⟩ := not_or.mp hpasses
  obtain ⟨hprotocol, hport⟩ := not_or.mp hpasses
  refine hrefused ⟨Nat.lt_of_not_le hroom, Nat.le_of_not_lt hdirection, ?_, fun hne ↦ ?_⟩
  · by_contra hnone
    obtain ⟨hzero, hnone⟩ := not_or.mp hnone
    obtain ⟨hicmp, hnone⟩ := not_or.mp hnone
    exact hprotocol ⟨hzero, hicmp, not_or.mp hnone⟩
  · by_contra hnone
    exact hport ⟨hne, not_or.mp hnone⟩

theorem fwDelete_of_present (hpresent : 1 ≤ number ∧ number ≤ fw.count) :
    (fwDelete fw number).1 = true ∧ (fwDelete fw number).2.table = fw.table.eraseIdx (number - 1) := by
  unfold fwDelete
  rw [if_neg (by omega)]
  refine ⟨rfl, List.ext_getElem? fun i ↦ ?_⟩
  rw [List.getElem?_eraseIdx, getElem?_table, getElem?_table, getElem?_table]
  change (if i < fw.count - 1 then
    some ((List.range' number (fw.count - number)).foldl moveDown fw.rules i) else none) = _
  rw [foldl_moveDown _ (by omega)]
  by_cases hin : i + 1 < fw.count
  · have hmoved : (number ≤ i + 1 ∧ i + 1 < number + (fw.count - number)) ↔ ¬ i < number - 1 := by omega
    have hshort : i < fw.count - 1 := by omega
    rw [if_pos hshort, if_pos hin, if_pos (Nat.lt_of_succ_lt hin)]
    simp only [hmoved]
    by_cases hbefore : i < number - 1
    · rw [if_pos hbefore, if_neg (not_not.mpr hbefore)]
    · rw [if_neg hbefore, if_pos hbefore]
  · have hshort : ¬ i < fw.count - 1 := by omega
    rw [if_neg hshort, if_neg hin, if_neg (by omega)]

theorem fwDelete_of_absent (habsent : ¬ (1 ≤ number ∧ number ≤ fw.count)) :
    fwDelete fw number = (false, fw) := by
  unfold fwDelete
  exact if_pos (by omega)

/-! ## Evaluations -/

/-- An evaluation of the policy adds to the hits, or changes nothing. -/
theorem fwBpfPolicy_fw (u : Upstream) (s : System) (p : Packet) (direction : ℕ) :
    (fwBpfPolicy u s p direction).2.fw = s.fw ∨
      ∃ counters, (fwBpfPolicy u s p direction).2.fw = addHits s.fw counters := by
  unfold fwBpfPolicy
  split
  · exact Or.inl rfl
  · unfold finish
    dsimp only
    split
    · exact Or.inl rfl
    · exact Or.inr ⟨_, rfl⟩

/-- What an accepted or refused packet counts. -/
def Counted (verdict : Bool) (direction : ℕ) (before after : Firewall) : Prop :=
  if verdict then
    after.allowed = Function.update before.allowed direction (before.allowed direction + 1) ∧
      after.denied = before.denied
  else
    after.denied = Function.update before.denied direction (before.denied direction + 1) ∧
      after.allowed = before.allowed

theorem fwAccept_counted (u : Upstream) (s : System) (p : Packet) (hdirection : direction ≤ fwOut) :
    Counted (fwAccept u s p direction).1 direction s.fw (fwAccept u s p direction).2.fw := by
  have hcounters : (fwBpfPolicy u s p direction).2.fw.allowed = s.fw.allowed ∧
      (fwBpfPolicy u s p direction).2.fw.denied = s.fw.denied := by
    rcases fwBpfPolicy_fw u s p direction with h | ⟨counters, h⟩
    · rw [h]
      exact ⟨rfl, rfl⟩
    · rw [h]
      exact ⟨rfl, rfl⟩
  obtain ⟨hallowed, hdenied⟩ := hcounters
  rw [fwAccept, if_neg (Nat.not_lt.mpr hdirection)]
  unfold Counted
  dsimp only
  cases (fwBpfPolicy u s p direction).1 with
  | true => exact ⟨by rw [← hallowed]; rfl, hdenied⟩
  | false => exact ⟨by rw [← hdenied]; rfl, hallowed⟩

theorem fwAccept_uncounted (u : Upstream) (s : System) (p : Packet) (direction : ℕ) :
    (fwAccept u s p direction).2.fw.count = s.fw.count ∧
    ∀ i, ((fwAccept u s p direction).2.fw.rules i).fresh = (s.fw.rules i).fresh := by
  have hsame : (fwBpfPolicy u s p direction).2.fw.count = s.fw.count ∧
      (fwBpfPolicy u s p direction).2.fw.uncounted = s.fw.uncounted := by
    rcases fwBpfPolicy_fw u s p direction with h | ⟨counters, h⟩
    · rw [h]
      exact ⟨rfl, rfl⟩
    · rw [h]
      exact ⟨rfl, addHits_uncounted s.fw counters⟩
  rw [fwAccept]
  split
  · exact ⟨rfl, fun _ ↦ rfl⟩
  · exact ⟨hsame.1, fun i ↦ congrFun (congrArg Firewall.rules hsame.2) i⟩

theorem fwAccept_table (u : Upstream) (s : System) (p : Packet) (direction : ℕ) :
    (fwAccept u s p direction).2.fw.table.map FirewallRule.fresh = s.fw.table.map FirewallRule.fresh := by
  obtain ⟨hcount, hrules⟩ := fwAccept_uncounted u s p direction
  unfold Firewall.table
  rw [List.map_map, List.map_map, hcount]
  exact List.map_congr_left fun i _ ↦ hrules i

/-! ## Histories -/

/-- The array stands for the list of its first rules, which are legal and not more than fit. -/
structure Firewall.Shows (fw : Firewall) (rules : List FirewallRule) : Prop where
  table : fw.table = rules
  bounded : rules.length ≤ fwRules
  legal : ∀ rule ∈ rules, rule.Legal

/-- Whether a rule is legal does not depend on its hits. -/
theorem legal_fresh_iff : rule.fresh.Legal ↔ rule.Legal :=
  ⟨fun h ↦ ⟨h.direction, h.protocol, h.port⟩, fun h ↦ ⟨h.direction, h.protocol, h.port⟩⟩

/-- A call does to the table what it does to the list. -/
theorem simulates_boundedList (u : Upstream) :
    Simulates (TableCall.perform u) BoundedList fun s rules ↦ s.fw.Shows rules := by
  intro s rules call hshows
  obtain ⟨rfl, hbounded, hlegal⟩ := hshows
  rw [length_table] at hbounded
  cases call with
  | reset => exact ⟨[], .reset _, rfl, Nat.zero_le _, nofun⟩
  | add rule =>
    by_cases hadds : s.fw.count < fwRules ∧ rule.Legal
    · obtain ⟨hanswer, htable⟩ := fwAdd_of_legal hadds.1 hadds.2
      refine ⟨s.fw.table ++ [rule.fresh], ?_, htable, ?_, ?_⟩
      · rw [TableCall.perform, hanswer]
        exact .append (by rw [length_table]; exact hadds.1) hadds.2
      · rw [List.length_append, length_table]
        exact hadds.1
      · intro other hother
        rcases List.mem_append.mp hother with hold | hnew
        · exact hlegal other hold
        · rw [List.mem_singleton.mp hnew]
          exact legal_fresh_iff.mpr hadds.2
    · rw [TableCall.perform, fwAdd_of_not_legal hadds]
      exact ⟨s.fw.table, .notAppended (by rwa [length_table]), rfl, by rwa [length_table], hlegal⟩
  | delete number =>
    by_cases hpresent : 1 ≤ number ∧ number ≤ s.fw.count
    · obtain ⟨hanswer, htable⟩ := fwDelete_of_present hpresent
      refine ⟨s.fw.table.eraseIdx (number - 1), ?_, htable, ?_, fun rule hrule ↦ ?_⟩
      · rw [TableCall.perform, hanswer]
        exact .remove (by rwa [length_table])
      · exact (List.length_eraseIdx_le _ _).trans (by rwa [length_table])
      · exact hlegal rule (List.mem_of_mem_eraseIdx hrule)
    · rw [TableCall.perform, fwDelete_of_absent hpresent]
      exact ⟨s.fw.table, .notRemoved (by rwa [length_table]), rfl, by rwa [length_table], hlegal⟩
  | accept p direction =>
    have hsame := fwAccept_table u s p direction
    have hcount := (fwAccept_uncounted u s p direction).1
    refine ⟨_, .accept _ hsame, rfl, ?_, fun rule hrule ↦ ?_⟩
    · rw [length_table]
      exact hcount.le.trans hbounded
    · have hfresh : rule.fresh ∈ s.fw.table.map FirewallRule.fresh :=
        hsame ▸ List.mem_map_of_mem hrule
      obtain ⟨old, hold, heq⟩ := List.mem_map.mp hfresh
      rw [← legal_fresh_iff, ← heq, legal_fresh_iff]
      exact hlegal old hold

/-- For every history from the reset on, the visible table is what the bounded list has become, all
its rules are legal, and an evaluation in a legal direction counts once. -/
theorem table_boundedList (u : Upstream) (maps : Maps) (stats : FirewallBpfStats)
    (calls : List TableCall) :
    let final := answers (TableCall.perform u) ⟨fwReset, maps, stats⟩ calls
    Allowed BoundedList [] calls final.1 final.2.fw.table ∧
    final.2.fw.count ≤ fwRules ∧ (∀ rule ∈ final.2.fw.table, rule.Legal) ∧
    ∀ p, ∀ direction ≤ fwOut, Counted (fwAccept u final.2 p direction).1 direction final.2.fw
      (fwAccept u final.2 p direction).2.fw := by
  intro final
  have hstart : fwReset.Shows [] := ⟨rfl, Nat.zero_le _, nofun⟩
  have hrun := (simulates_boundedList u).answers calls
    (show (⟨fwReset, maps, stats⟩ : System).fw.Shows [] from hstart)
  obtain ⟨rules, hallowed, htable, hbounded, hlegal⟩ := hrun
  have hrules : final.2.fw.table = rules := htable
  rw [hrules, ← length_table, hrules]
  exact ⟨hallowed, hbounded, hlegal, fun p direction hdirection ↦ fwAccept_counted u final.2 p hdirection⟩

end JordyOS.Policy
