import JordyOS.Machine.Tokens
import JordyOS.Net.Cidr
import JordyOS.Policy.Adapter

/-!
# Firewall commands

`fw_command` of `command.c`.  It cuts its argument into words in place, tries the forms of a command one
after the other and fills a rule word by word.  Whatever the argument is, it either leaves the firewall as it
is or makes one edit, and a rule that it appends is the one that the grammar of the commands assigns to the
words.
-/

namespace JordyOS.Policy

open Machine Net

/-! ## The code -/

def isBlank (c : UInt8) : Bool := c == ' '.toUInt8 || c == '\t'.toUInt8

/-- What `words` leaves behind: its result, the pointers in `out` and the text, which it has edited. -/
structure Words where
  n : ℤ
  w : List ℕ
  text : List UInt8

/-- The rounds of the outer loop; `position` is where the pointer of the source stands. -/
def wordsLoop (maximum : ℕ) :
    (rounds : ℕ) → (text : List UInt8) → (position : ℕ) → (out : List ℕ) → Scan Words
  | 0, _, _, _ => fault
  | rounds + 1, text, position, out => do
    let c ← peek (text.drop position)
    if c = 0 then .ok ⟨out.length, out, text⟩
    else
      let blanks ← skip isBlank (text.drop position)
      let start := position + blanks
      let c ← peek (text.drop start)
      if c = 0 then .ok ⟨out.length, out, text⟩
      else if out.length = maximum then .ok ⟨-1, out, text⟩
      else
        let length ← skip (fun c ↦ c ≠ 0 && !isBlank c) (text.drop start)
        let c ← peek (text.drop (start + length))
        if c = 0 then wordsLoop maximum rounds text (start + length) (out ++ [start])
        else
          let text ← poke text (start + length) 0
          wordsLoop maximum rounds text (start + length + 1) (out ++ [start])

/-- A round that is not the last passes at least one byte of the text. -/
def words (text : List UInt8) (maximum : ℕ) : Scan Words := wordsLoop maximum text.length text 0 []

namespace Words

/-- `w[i]`, as what is left of the text from there on. -/
def get (a : Words) (i : ℕ) : Scan (List UInt8) :=
  match a.w[i]? with
  | none => fault
  | some pointer => .ok (a.text.drop pointer)

/-- `!strcmp(w[i], literal)`. -/
def is (a : Words) (i : ℕ) (literal : String) : Scan Bool := do
  let text ← a.get i
  sameString text (bytesOf literal ++ [0])

/-- `n == 1 && !strcmp(w[0], literal)`. -/
def only (a : Words) (literal : String) : Scan Bool := andThen (a.n == 1) (a.is 0 literal)

end Words

def action (text : List UInt8) : Scan (Option Bool) := do
  let allow ← sameString text (bytesOf "allow" ++ [0])
  if allow then .ok (some true)
  else
    let deny ← sameString text (bytesOf "deny" ++ [0])
    if deny then .ok (some false) else .ok none

/-- The rule, unless the answer is `false`, and the text, in which a slash may have become a terminator. -/
def service (text : List UInt8) (pointer : ℕ) (rule : FirewallRule) :
    Scan (Option FirewallRule × List UInt8) := do
  let all ← sameString (text.drop pointer) (bytesOf "all" ++ [0])
  if all then .ok (some rule, text)
  else
    let icmp ← sameString (text.drop pointer) (bytesOf "icmp" ++ [0])
    if icmp then .ok (some { rule with protocol := netIcmp }, text)
    else
      let tcp ← sameString (text.drop pointer) (bytesOf "tcp" ++ [0])
      if tcp then .ok (some { rule with protocol := netTcp }, text)
      else
        let udp ← sameString (text.drop pointer) (bytesOf "udp" ++ [0])
        if udp then .ok (some { rule with protocol := netUdp }, text)
        else
          let digits ← skip (fun c ↦ c ≠ 0 && c ≠ slash) (text.drop pointer)
          let c ← peek (text.drop (pointer + digits))
          if c = 0 then .ok (none, text)
          else
            let text ← poke text (pointer + digits) 0
            let port ← attempt (netNumber (text.drop pointer) 65535)
            match port with
            | none => .ok (none, text)
            | some port =>
              if port = 0 then .ok (none, text)
              else
                let tcp ← sameString (text.drop (pointer + digits + 1)) (bytesOf "tcp" ++ [0])
                if tcp then .ok (some { rule with protocol := netTcp, port := port.toUInt16 }, text)
                else
                  let udp ← sameString (text.drop (pointer + digits + 1)) (bytesOf "udp" ++ [0])
                  if udp then .ok (some { rule with protocol := netUdp, port := port.toUInt16 }, text)
                  else .ok (none, text)

/-- What the commands report of the rest of the kernel. -/
structure Host where
  /-- `fw_bpf_ready()`. -/
  ready : Bool
  policySize : UInt32
  xdpSize : UInt32
  hash : String
  stats : FirewallBpfStats
  /-- `native_network.up`. -/
  up : Bool

/-- What is printed at the end of a command. -/
inductive Report
  | help
  | notReady
  | enabled
  | disabled
  | status
  | stats
  | bpf
  | doctor
  | reset
  | deleted
  | full
  | blockAdded (count : ℕ)
  | defaultUpdated
  | added (count : ℕ)
  | invalid
  deriving DecidableEq, Repr

/-- The operand of `from` or `to`; `any` leaves the fields as they are. -/
def operand (stack : ℕ → Fin 4 → UInt8) (a : Words) (i : ℕ) (address mask : UInt32) :
    Scan (Option (UInt32 × UInt32)) := do
  let any ← a.is i "any"
  if any then .ok (some (address, mask))
  else
    let text ← a.get i
    attempt (netCidr stack text)

/-- The loop over the clauses of a rule; `none` is a jump to `invalid`. -/
def clauseLoop (stack : ℕ → Fin 4 → UInt8) (a : Words) :
    (rounds : ℕ) → (i : ℕ) → (fromSeen toSeen : Bool) → FirewallRule → Scan (Option FirewallRule)
  | 0, _, _, _, _ => fault
  | rounds + 1, i, fromSeen, toSeen, rule =>
    if a.n ≤ i then .ok (some rule)
    else if a.n ≤ i + 1 then .ok none
    else do
      let source ← a.is i "from"
      if source && !fromSeen then
        let value ← operand stack a (i + 1) rule.source rule.sourceMask
        match value with
        | none => .ok none
        | some (address, mask) =>
          clauseLoop stack a rounds (i + 2) true toSeen { rule with source := address, sourceMask := mask }
      else
        let destination ← a.is i "to"
        if destination && !toSeen then
          let value ← operand stack a (i + 1) rule.destination rule.destinationMask
          match value with
          | none => .ok none
          | some (address, mask) =>
            clauseLoop stack a rounds (i + 2) fromSeen true
              { rule with destination := address, destinationMask := mask }
        else .ok none

/-- The part of a rule from word `i` on, which is to be the service. -/
def ruleFrom (stack : ℕ → Fin 4 → UInt8) (fw : Firewall) (a : Words) (i : ℕ) (rule : FirewallRule) :
    Scan (Report × Firewall) :=
  if a.n ≤ i then .ok (.invalid, fw)
  else
    match a.w[i]? with
    | none => fault
    | some pointer => do
      let (rule, text) ← service a.text pointer rule
      match rule with
      | none => .ok (.invalid, fw)
      | some rule =>
        let rule ← clauseLoop stack { a with text := text } (a.n.toNat + 1) (i + 1) false false rule
        match rule with
        | none => .ok (.invalid, fw)
        | some rule =>
          let (added, fw) := fwAdd fw rule
          if added then .ok (.added fw.count, fw) else .ok (.full, fw)

/-- The form `allow|deny [in|out] SERVICE ...`. -/
def ruleCommand (stack : ℕ → Fin 4 → UInt8) (fw : Firewall) (a : Words) (allow : Bool) :
    Scan (Report × Firewall) := do
  let incoming ← a.is 1 "in"
  if incoming then ruleFrom stack fw a 2 { allow := allow, direction := 0 }
  else
    let outgoing ← a.is 1 "out"
    if outgoing then ruleFrom stack fw a 2 { allow := allow, direction := 1 }
    else ruleFrom stack fw a 1 { allow := allow, direction := 0 }

/-- The form `block from CIDR`. -/
def blockCommand (stack : ℕ → Fin 4 → UInt8) (fw : Firewall) (a : Words) : Scan (Report × Firewall) := do
  let text ← a.get 2
  let cidr ← attempt (netCidr stack text)
  match cidr with
  | none => .ok (.invalid, fw)
  | some (source, mask) =>
    let (added, fw) := fwAdd fw { block := true, source := source, sourceMask := mask }
    if added then .ok (.blockAdded fw.count, fw) else .ok (.full, fw)

/-- The form `default allow|deny incoming|outgoing`. -/
def defaultCommand (fw : Firewall) (a : Words) (allow : Bool) : Scan (Report × Firewall) := do
  let incoming ← a.is 2 "incoming"
  if incoming then .ok (.defaultUpdated, { fw with defaults := Function.update fw.defaults 0 allow })
  else
    let outgoing ← a.is 2 "outgoing"
    if outgoing then .ok (.defaultUpdated, { fw with defaults := Function.update fw.defaults fwOut allow })
    else .ok (.invalid, fw)

/-- The last form to be tried. -/
def ordinaryCommand (stack : ℕ → Fin 4 → UInt8) (fw : Firewall) (a : Words) : Scan (Report × Firewall) := do
  let value ← (if 2 ≤ a.n then do
      let text ← a.get 0
      action text
    else .ok none)
  match value with
  | some allow => ruleCommand stack fw a allow
  | none => .ok (.invalid, fw)

/-- The forms from `block` on. -/
def policyCommand (stack : ℕ → Fin 4 → UInt8) (fw : Firewall) (a : Words) : Scan (Report × Firewall) := do
  let block ← andThen (a.n == 3) (a.is 0 "block")
  let block ← andThen block (a.is 1 "from")
  if block then blockCommand stack fw a
  else
    let change ← andThen (a.n == 3) (a.is 0 "default")
    let value ← (if change then do
        let text ← a.get 1
        action text
      else .ok none)
    match value with
    | some allow => defaultCommand fw a allow
    | none => ordinaryCommand stack fw a

/-- The forms with operands, from `delete` on. -/
def editCommand (stack : ℕ → Fin 4 → UInt8) (fw : Firewall) (a : Words) : Scan (Report × Firewall) := do
  let delete ← andThen (a.n == 2) (a.is 0 "delete")
  let number ← (if delete then do
      let text ← a.get 1
      attempt (netNumber text 32)
    else .ok none)
  let (deleted, fw) := match number with
    | none => (false, fw)
    | some number => fwDelete fw number.toNat
  if deleted then .ok (.deleted, fw) else policyCommand stack fw a

def fwCommand (host : Host) (stack : ℕ → Fin 4 → UInt8) (fw : Firewall) (arguments : List UInt8) :
    Scan (Report × Firewall) := do
  let a ← words arguments 10
  let help ← a.only "help"
  if a.n = 0 ∨ help = true then .ok (.help, fw)
  else
    let enable ← a.only "enable"
    if enable then
      if host.ready then .ok (.enabled, { fw with enabled := true }) else .ok (.notReady, fw)
    else
      let disable ← a.only "disable"
      if disable then .ok (.disabled, { fw with enabled := false })
      else
        let numbered ← andThen (a.n == 2) (a.is 1 "numbered")
        let status ← andThen (a.n == 1 || numbered) (a.is 0 "status")
        if status then .ok (.status, fw)
        else
          let stats ← a.only "stats"
          if stats then .ok (.stats, fw)
          else
            let bpf ← a.only "bpf"
            if bpf then .ok (.bpf, fw)
            else
              let doctor ← a.only "doctor"
              if doctor then .ok (.doctor, fw)
              else
                let reset ← a.only "reset"
                if reset then .ok (.reset, fwReset) else editCommand stack fw a

end JordyOS.Policy
