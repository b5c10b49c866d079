import JordyOS.Net.Packet

/-!
# The rule table

`firewall.c` without the evaluation of packets: the native rule table and the three operations that
build it.  The table is an array with a count; what is in it is the list of its first `count` rules.
-/

namespace JordyOS.Policy

open Machine Net

def fwRules : ℕ := 32

def fwOut : ℕ := 1

structure FirewallRule where
  source : UInt32 := 0
  sourceMask : UInt32 := 0
  destination : UInt32 := 0
  destinationMask : UInt32 := 0
  hits : UInt32 := 0
  /-- The destination port; zero means any. -/
  port : UInt16 := 0
  protocol : UInt8 := 0
  direction : UInt8 := 0
  allow : Bool := false
  block : Bool := false
  deriving DecidableEq, Repr

/-- The state of the firewall.  Arrays are functions of the index. -/
structure Firewall where
  rules : ℕ → FirewallRule
  count : ℕ
  enabled : Bool
  defaults : ℕ → Bool
  allowed : ℕ → UInt32
  denied : ℕ → UInt32

def fwReset : Firewall where
  rules _ := {}
  count := 0
  enabled := false
  defaults direction := decide (direction = fwOut)
  allowed _ := 0
  denied _ := 0

def fwAdd (fw : Firewall) (rule : FirewallRule) : Bool × Firewall :=
  if fw.count ≥ fwRules ∨ rule.direction.toNat > fwOut ∨
      (rule.protocol ≠ 0 ∧ rule.protocol ≠ netIcmp ∧ rule.protocol ≠ netTcp ∧ rule.protocol ≠ netUdp) ∨
      (rule.port ≠ 0 ∧ rule.protocol ≠ netTcp ∧ rule.protocol ≠ netUdp) then (false, fw)
  else (true, { fw with
    rules := Function.update fw.rules fw.count { rule with hits := 0 }
    count := fw.count + 1 })

/-- One round of the loop that closes the gap: `fw->rules[i - 1] = fw->rules[i]`. -/
def moveDown (rules : ℕ → FirewallRule) (i : ℕ) : ℕ → FirewallRule :=
  Function.update rules (i - 1) (rules i)

def fwDelete (fw : Firewall) (number : ℕ) : Bool × Firewall :=
  if number = 0 ∨ number > fw.count then (false, fw)
  else (true, { fw with
    rules := (List.range' number (fw.count - number)).foldl moveDown fw.rules
    count := fw.count - 1 })

/-! ## The rules in the table -/

/-- The rules of a table all satisfy a predicate. -/
def Firewall.All (predicate : FirewallRule → Prop) (fw : Firewall) : Prop :=
  fw.count ≤ fwRules ∧ ∀ i < fw.count, predicate (fw.rules i)

variable {predicate : FirewallRule → Prop} {fw : Firewall}

theorem all_fwReset : fwReset.All predicate :=
  ⟨Nat.zero_le _, fun i hi ↦ absurd hi (Nat.not_lt_zero i)⟩

theorem Firewall.All.fwAdd (h : fw.All predicate) {rule : FirewallRule}
    (hrule : rule.direction.toNat ≤ fwOut → predicate { rule with hits := 0 }) :
    (fwAdd fw rule).2.All predicate := by
  unfold Policy.fwAdd
  split
  · exact h
  · rename_i hchecks
    obtain ⟨hcount, hchecks⟩ := not_or.mp hchecks
    obtain ⟨hdirection, -⟩ := not_or.mp hchecks
    refine ⟨Nat.lt_of_not_le hcount, fun i hi ↦ ?_⟩
    change predicate (Function.update fw.rules fw.count _ i)
    by_cases hnew : i = fw.count
    · rw [hnew, Function.update_self]
      exact hrule (Nat.le_of_not_lt hdirection)
    · rw [Function.update_of_ne hnew]
      exact h.2 i (Nat.lt_of_le_of_ne (Nat.le_of_lt_succ hi) hnew)

/-- The loop of `fw_delete` moves each rule from `number` on down by one place. -/
theorem foldl_moveDown (rules : ℕ → FirewallRule) {number : ℕ} (hnumber : 0 < number) (steps i : ℕ) :
    ((List.range' number steps).foldl moveDown rules) i =
      if number ≤ i + 1 ∧ i + 1 < number + steps then rules (i + 1) else rules i := by
  induction steps generalizing i with
  | zero =>
    rw [if_neg (by omega)]
    rfl
  | succ steps ih =>
    rw [List.range'_concat, List.foldl_append, List.foldl_cons, List.foldl_nil, Nat.one_mul, moveDown]
    by_cases hlast : i = number + steps - 1
    · rw [hlast, Function.update_self, ih, if_neg (by omega), if_pos (by omega)]
      congr 1
      omega
    · rw [Function.update_of_ne hlast, ih]
      congr 1
      exact propext (by omega)

theorem Firewall.All.fwDelete (h : fw.All predicate) (number : ℕ) :
    (fwDelete fw number).2.All predicate := by
  unfold Policy.fwDelete
  split
  · exact h
  · rename_i hchecks
    obtain ⟨hpos, hle⟩ := not_or.mp hchecks
    refine ⟨Nat.le_trans (Nat.sub_le _ _) h.1, fun i hi ↦ ?_⟩
    have hi' : i < fw.count - 1 := hi
    change predicate ((List.range' number (fw.count - number)).foldl moveDown fw.rules i)
    rw [foldl_moveDown _ (Nat.pos_of_ne_zero hpos)]
    split
    · exact h.2 (i + 1) (by omega)
    · exact h.2 i (by omega)

end JordyOS.Policy
