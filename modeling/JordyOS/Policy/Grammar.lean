import JordyOS.Net.Cidr
import JordyOS.Policy.Table

/-!
# The grammar of the commands

What the firewall commands are documented to mean, word by word, and the same as a function.  The documented
order of the clauses is `from` before `to`; the commands take them in either order.
-/

namespace JordyOS.Policy

open Machine Net

/-! ## Requests -/

abbrev Word := List UInt8

/-- What a command asks for. -/
inductive Request
  | help
  | enable
  | disable
  | status
  | stats
  | bpf
  | doctor
  | reset
  | delete (number : ℕ)
  | setDefault (direction : ℕ) (allow : Bool)
  | append (rule : FirewallRule)
  deriving DecidableEq, Repr

/-- The commands without operands. -/
def fixedForms : List (List Word × Request) :=
  [([], .help), ([bytesOf "help"], .help), ([bytesOf "enable"], .enable), ([bytesOf "disable"], .disable),
    ([bytesOf "status"], .status), ([bytesOf "status", bytesOf "numbered"], .status),
    ([bytesOf "stats"], .stats), ([bytesOf "bpf"], .bpf), ([bytesOf "doctor"], .doctor),
    ([bytesOf "reset"], .reset)]

/-! ## The grammar -/

/-- Decimal digits with a value up to a maximum. -/
structure NumberText (word : Word) (maximum : ℕ) : Prop where
  nonempty : word ≠ []
  digits : ∀ c ∈ word, IsDigit c
  small : decimalValue word ≤ maximum

inductive ActionText : Word → Bool → Prop
  | allow : ActionText (bytesOf "allow") true
  | deny : ActionText (bytesOf "deny") false

/-- An omitted direction means incoming. -/
inductive DirectionText : List Word → UInt8 → Prop
  | omitted : DirectionText [] 0
  | incoming : DirectionText [bytesOf "in"] 0
  | outgoing : DirectionText [bytesOf "out"] 1

/-- The service with its protocol and its port; zero stands for any. -/
inductive ServiceText : Word → UInt8 → UInt16 → Prop
  | all : ServiceText (bytesOf "all") 0 0
  | icmp : ServiceText (bytesOf "icmp") netIcmp 0
  | tcp : ServiceText (bytesOf "tcp") netTcp 0
  | udp : ServiceText (bytesOf "udp") netUdp 0
  | tcpPort {digits : Word} (h : NumberText digits 65535) (hpos : 0 < decimalValue digits) :
      ServiceText (digits ++ slash :: bytesOf "tcp") netTcp (UInt16.ofNat (decimalValue digits))
  | udpPort {digits : Word} (h : NumberText digits 65535) (hpos : 0 < decimalValue digits) :
      ServiceText (digits ++ slash :: bytesOf "udp") netUdp (UInt16.ofNat (decimalValue digits))

/-- A prefix, or `any`, as an address without host bits and a mask. -/
inductive OperandText : Word → UInt32 → UInt32 → Prop
  | any : OperandText (bytesOf "any") 0 0
  | cidr {word : Word} {whole : UInt32} {bits : ℕ} (h : CidrText word whole bits) :
      OperandText word (whole &&& prefixMask bits) (prefixMask bits)

/-- The fields of a rule that the clauses set. -/
structure Endpoints where
  source : UInt32 := 0
  sourceMask : UInt32 := 0
  destination : UInt32 := 0
  destinationMask : UInt32 := 0
  deriving DecidableEq

/-- The documented clauses: `[from CIDR|any] [to CIDR|any]`. -/
inductive InOrder : List Word → Endpoints → Prop
  | omitted : InOrder [] {}
  | source {word : Word} {address mask : UInt32} (h : OperandText word address mask) :
      InOrder [bytesOf "from", word] { source := address, sourceMask := mask }
  | destination {word : Word} {address mask : UInt32} (h : OperandText word address mask) :
      InOrder [bytesOf "to", word] { destination := address, destinationMask := mask }
  | both {first second : Word} {source sourceMask destination destinationMask : UInt32}
      (hfirst : OperandText first source sourceMask)
      (hsecond : OperandText second destination destinationMask) :
      InOrder [bytesOf "from", first, bytesOf "to", second] ⟨source, sourceMask, destination, destinationMask⟩

/-- The clauses as they are taken: each at most once, in either order. -/
inductive EitherOrder : List Word → Endpoints → Prop
  | inOrder {words : List Word} {endpoints : Endpoints} (h : InOrder words endpoints) :
      EitherOrder words endpoints
  | swapped {first second : Word} {source sourceMask destination destinationMask : UInt32}
      (hfirst : OperandText first destination destinationMask)
      (hsecond : OperandText second source sourceMask) :
      EitherOrder [bytesOf "to", first, bytesOf "from", second]
        ⟨source, sourceMask, destination, destinationMask⟩

/-- The rule with the given fields. -/
def ordinaryRule (allow : Bool) (direction protocol : UInt8) (port : UInt16) (e : Endpoints) : FirewallRule :=
  { allow := allow, direction := direction, protocol := protocol, port := port, source := e.source,
    sourceMask := e.sourceMask, destination := e.destination, destinationMask := e.destinationMask }

def blockRule (source mask : UInt32) : FirewallRule := { block := true, source := source, sourceMask := mask }

/-- The words of a command and what it asks for, for a given shape of the clauses. -/
inductive Grammar (Clauses : List Word → Endpoints → Prop) : List Word → Request → Prop
  | fixed {words : List Word} {request : Request} (h : (words, request) ∈ fixedForms) :
      Grammar Clauses words request
  | delete {digits : Word} (h : NumberText digits fwRules) :
      Grammar Clauses [bytesOf "delete", digits] (.delete (decimalValue digits))
  | block {word : Word} {whole : UInt32} {bits : ℕ} (h : CidrText word whole bits) :
      Grammar Clauses [bytesOf "block", bytesOf "from", word]
        (.append (blockRule (whole &&& prefixMask bits) (prefixMask bits)))
  | defaultIn {word : Word} {allow : Bool} (h : ActionText word allow) :
      Grammar Clauses [bytesOf "default", word, bytesOf "incoming"] (.setDefault 0 allow)
  | defaultOut {word : Word} {allow : Bool} (h : ActionText word allow) :
      Grammar Clauses [bytesOf "default", word, bytesOf "outgoing"] (.setDefault fwOut allow)
  | rule {word name : Word} {allow : Bool} {direction protocol : UInt8} {port : UInt16}
      {between clauses : List Word} {endpoints : Endpoints} (haction : ActionText word allow)
      (hdirection : DirectionText between direction) (hservice : ServiceText name protocol port)
      (hclauses : Clauses clauses endpoints) :
      Grammar Clauses (word :: (between ++ name :: clauses))
        (.append (ordinaryRule allow direction protocol port endpoints))

/-! ## The grammar as a function -/

def numberOf (word : Word) (maximum : ℕ) : Option ℕ :=
  if word ≠ [] ∧ (∀ c ∈ word, IsDigit c) ∧ decimalValue word ≤ maximum then some (decimalValue word) else none

theorem numberOf_eq_some {word : Word} {maximum n : ℕ} :
    numberOf word maximum = some n ↔ NumberText word maximum ∧ decimalValue word = n := by
  unfold numberOf
  rw [Option.ite_none_right_eq_some, Option.some.injEq]
  exact and_congr_left' ⟨fun h ↦ ⟨h.1, h.2.1, h.2.2⟩, fun h ↦ ⟨h.nonempty, h.digits, h.small⟩⟩

def actionOf (word : Word) : Option Bool :=
  if word = bytesOf "allow" then some true else if word = bytesOf "deny" then some false else none

theorem actionOf_eq_some {word : Word} {allow : Bool} : actionOf word = some allow ↔ ActionText word allow := by
  constructor
  · intro h
    unfold actionOf at h
    split at h
    · rename_i hword
      rw [hword, ← Option.some.inj h]
      exact .allow
    · rw [Option.ite_none_right_eq_some, Option.some.injEq] at h
      rw [h.1, ← h.2]
      exact .deny
  · intro h
    cases h <;> decide

/-- The parts in front of and behind the first slash. -/
def portOf (word : Word) (protocol : UInt8) : Option (UInt8 × UInt16) :=
  match numberOf word 65535 with
  | none => none
  | some port => if port = 0 then none else some (protocol, UInt16.ofNat port)

/-- The service that stands behind a port. -/
def portService (digits name : Word) : Option (UInt8 × UInt16) :=
  if name = bytesOf "tcp" then portOf digits netTcp
  else if name = bytesOf "udp" then portOf digits netUdp
  else none

def serviceOf (word : Word) : Option (UInt8 × UInt16) :=
  if word = bytesOf "all" then some (0, 0)
  else if word = bytesOf "icmp" then some (netIcmp, 0)
  else if word = bytesOf "tcp" then some (netTcp, 0)
  else if word = bytesOf "udp" then some (netUdp, 0)
  else
    match word.dropWhile (· ≠ slash) with
    | [] => none
    | _ :: name => portService (word.takeWhile (· ≠ slash)) name

theorem portOf_eq_some {word : Word} {protocol p : UInt8} {port : UInt16} :
    portOf word protocol = some (p, port) ↔ NumberText word 65535 ∧ 0 < decimalValue word ∧
      p = protocol ∧ port = UInt16.ofNat (decimalValue word) := by
  unfold portOf
  cases hnumber : numberOf word 65535 with
  | none =>
    refine iff_of_false nofun fun h ↦ ?_
    rw [numberOf_eq_some.mpr ⟨h.1, rfl⟩] at hnumber
    cases hnumber
  | some n =>
    obtain ⟨htext, rfl⟩ := numberOf_eq_some.mp hnumber
    dsimp only
    by_cases hzero : decimalValue word = 0
    · rw [if_pos hzero]
      refine iff_of_false nofun fun h ↦ ?_
      omega
    · rw [if_neg hzero, Option.some.injEq, Prod.mk.injEq]
      constructor
      · rintro ⟨rfl, rfl⟩
        exact ⟨htext, Nat.pos_of_ne_zero hzero, rfl, rfl⟩
      · rintro ⟨-, -, rfl, rfl⟩
        exact ⟨rfl, rfl⟩

theorem portService_eq_some {digits name : Word} {protocol : UInt8} {port : UInt16} :
    portService digits name = some (protocol, port) ↔ NumberText digits 65535 ∧ 0 < decimalValue digits ∧
      port = UInt16.ofNat (decimalValue digits) ∧
      (name = bytesOf "tcp" ∧ protocol = netTcp ∨ name = bytesOf "udp" ∧ protocol = netUdp) := by
  have hdifferent : bytesOf "tcp" ≠ bytesOf "udp" := by decide
  unfold portService
  by_cases htcp : name = bytesOf "tcp"
  · rw [if_pos htcp, portOf_eq_some, htcp]
    constructor
    · rintro ⟨htext, hpos, rfl, rfl⟩
      exact ⟨htext, hpos, rfl, .inl ⟨rfl, rfl⟩⟩
    · rintro ⟨htext, hpos, rfl, ⟨-, rfl⟩ | ⟨hudp, -⟩⟩
      · exact ⟨htext, hpos, rfl, rfl⟩
      · exact absurd hudp hdifferent
  · rw [if_neg htcp]
    by_cases hudp : name = bytesOf "udp"
    · rw [if_pos hudp, portOf_eq_some]
      constructor
      · rintro ⟨htext, hpos, rfl, rfl⟩
        exact ⟨htext, hpos, rfl, .inr ⟨hudp, rfl⟩⟩
      · rintro ⟨htext, hpos, rfl, ⟨htcp', -⟩ | ⟨-, rfl⟩⟩
        · exact absurd htcp' htcp
        · exact ⟨htext, hpos, rfl, rfl⟩
    · rw [if_neg hudp]
      refine iff_of_false nofun ?_
      rintro ⟨-, -, -, ⟨htcp', -⟩ | ⟨hudp', -⟩⟩
      · exact htcp htcp'
      · exact hudp hudp'

/-- What the first slash divides. -/
theorem serviceOf_append {front name : Word} (hfront : ∀ c ∈ front, c ≠ slash) :
    serviceOf (front ++ slash :: name) = portService front name := by
  have hslash : slash ∈ front ++ slash :: name := List.mem_append_right _ List.mem_cons_self
  have hkeyword (keyword : Word) (hno : slash ∉ keyword) : front ++ slash :: name ≠ keyword :=
    fun heq ↦ hno (heq ▸ hslash)
  have hpass : ∀ c ∈ front, (decide (c ≠ slash)) = true := fun c hc ↦ decide_eq_true (hfront c hc)
  unfold serviceOf
  rw [if_neg (hkeyword _ (by decide)), if_neg (hkeyword _ (by decide)), if_neg (hkeyword _ (by decide)),
    if_neg (hkeyword _ (by decide)), List.dropWhile_append_of_pos hpass, List.takeWhile_append_of_pos hpass]
  simp only [ne_eq, not_true_eq_false, decide_false, Bool.false_eq_true, not_false_eq_true,
    List.dropWhile_cons_of_neg, List.takeWhile_cons_of_neg, List.append_nil]

theorem serviceOf_eq_some {word : Word} {protocol : UInt8} {port : UInt16} :
    serviceOf word = some (protocol, port) ↔ ServiceText word protocol port := by
  have hdigits {digits : Word} (h : NumberText digits 65535) : ∀ c ∈ digits, c ≠ slash :=
    fun c hc heq ↦ absurd (heq ▸ h.digits c hc) (by decide)
  constructor
  · intro h
    unfold serviceOf at h
    split at h
    · rename_i hword
      obtain ⟨rfl, rfl⟩ := Prod.mk.inj (Option.some.inj h)
      exact hword ▸ .all
    split at h
    · rename_i hword
      obtain ⟨rfl, rfl⟩ := Prod.mk.inj (Option.some.inj h)
      exact hword ▸ .icmp
    split at h
    · rename_i hword
      obtain ⟨rfl, rfl⟩ := Prod.mk.inj (Option.some.inj h)
      exact hword ▸ .tcp
    split at h
    · rename_i hword
      obtain ⟨rfl, rfl⟩ := Prod.mk.inj (Option.some.inj h)
      exact hword ▸ .udp
    cases hdrop : word.dropWhile (· ≠ slash) with
    | nil =>
      rw [hdrop] at h
      cases h
    | cons c name =>
      have hc : c = slash := by
        have hnot := List.head?_dropWhile_not (· ≠ slash) word
        rw [hdrop] at hnot
        simpa using hnot
      have hsplit := List.takeWhile_append_dropWhile (p := (· ≠ slash)) (l := word)
      rw [hdrop, hc] at hsplit
      rw [hdrop] at h
      rw [← hsplit]
      obtain ⟨htext, hpos, rfl, ⟨rfl, rfl⟩ | ⟨rfl, rfl⟩⟩ := portService_eq_some.mp h
      · exact .tcpPort htext hpos
      · exact .udpPort htext hpos
  · intro h
    cases h with
    | all => decide
    | icmp => decide
    | tcp => decide
    | udp => decide
    | tcpPort htext hpos =>
      rw [serviceOf_append (hdigits htext)]
      exact portService_eq_some.mpr ⟨htext, hpos, rfl, .inl ⟨rfl, rfl⟩⟩
    | udpPort htext hpos =>
      rw [serviceOf_append (hdigits htext)]
      exact portService_eq_some.mpr ⟨htext, hpos, rfl, .inr ⟨rfl, rfl⟩⟩

/-- The address and the mask of a prefix. -/
def cidrOf (word : Word) : Option (UInt32 × UInt32) := (netCidr (fun _ _ ↦ 0) (word ++ [0])).toOption

theorem netCidr_eq_cidrOf {word : Word} (hword : ∀ c ∈ word, c ≠ 0) (stack : ℕ → Fin 4 → UInt8)
    (rest : List UInt8) : attempt (netCidr stack (word ++ 0 :: rest)) = .ok (cidrOf word) := by
  have hterminated : Terminated (word ++ [0]) := ⟨⟨word, hword⟩, rfl⟩
  have hrest : word ++ 0 :: rest = word ++ [0] ++ rest := by rw [List.append_assoc, List.singleton_append]
  unfold cidrOf
  rw [hrest, netCidr_append stack hterminated]
  by_cases htext : ∃ whole bits, CidrText word whole bits
  · obtain ⟨whole, bits, htext⟩ := htext
    rw [netCidr_of_cidrText _ htext, netCidr_of_cidrText _ htext]
    rfl
  · have hreject (stack : ℕ → Fin 4 → UInt8) : netCidr stack (word ++ [0]) = reject := by
      rcases netCidr_cases stack hterminated with hreject | ⟨bytes, whole, bits, hbytes, hsame⟩
      · exact hreject
      · exact absurd ⟨whole, bits, List.append_cancel_right hsame ▸ hbytes⟩ htext
    rw [hreject, hreject]
    rfl

theorem cidrOf_of_cidrText {word : Word} {whole : UInt32} {bits : ℕ} (h : CidrText word whole bits) :
    cidrOf word = some (whole &&& prefixMask bits, prefixMask bits) := by
  rw [cidrOf, netCidr_of_cidrText _ h]
  rfl

theorem exists_cidrText {word : Word} (hword : ∀ c ∈ word, c ≠ 0) {address mask : UInt32}
    (h : cidrOf word = some (address, mask)) : ∃ whole bits, CidrText word whole bits ∧
      address = whole &&& prefixMask bits ∧ mask = prefixMask bits := by
  have hterminated : Terminated (word ++ [0]) := ⟨⟨word, hword⟩, rfl⟩
  rcases netCidr_cases (fun _ _ ↦ 0) hterminated with hreject | ⟨bytes, whole, bits, hbytes, hsame⟩
  · rw [cidrOf, hreject] at h
    cases h
  · obtain rfl : word = bytes := List.append_cancel_right hsame
    rw [cidrOf_of_cidrText hbytes, Option.some.injEq, Prod.mk.injEq] at h
    exact ⟨whole, bits, hbytes, h.1.symm, h.2.symm⟩

/-- An operand that is `any` leaves the old address and mask. -/
def operandOf (word : Word) (address mask : UInt32) : Option (UInt32 × UInt32) :=
  if word = bytesOf "any" then some (address, mask) else cidrOf word

theorem operandOf_eq_some {word : Word} (hword : ∀ c ∈ word, c ≠ 0) {address mask : UInt32} :
    operandOf word 0 0 = some (address, mask) ↔ OperandText word address mask := by
  unfold operandOf
  constructor
  · intro h
    split at h
    · rename_i hany
      obtain ⟨rfl, rfl⟩ := Prod.mk.inj (Option.some.inj h)
      exact hany ▸ .any
    · obtain ⟨whole, bits, htext, rfl, rfl⟩ := exists_cidrText hword h
      exact .cidr htext
  · intro h
    cases h with
    | any => rfl
    | cidr htext =>
      have hcidr := cidrOf_of_cidrText htext
      rw [if_neg, hcidr]
      rintro rfl
      exact absurd hcidr (by rw [show cidrOf (bytesOf "any") = none by decide]; nofun)

/-- The clauses that are left, when those of the two flags have been seen. -/
def clausesOf : List Word → (fromSeen toSeen : Bool) → Endpoints → Option Endpoints
  | [], _, _, e => some e
  | [_], _, _, _ => none
  | key :: word :: rest, fromSeen, toSeen, e =>
    if key = bytesOf "from" ∧ fromSeen = false then
      match operandOf word e.source e.sourceMask with
      | none => none
      | some (address, mask) => clausesOf rest true toSeen { e with source := address, sourceMask := mask }
    else if key = bytesOf "to" ∧ toSeen = false then
      match operandOf word e.destination e.destinationMask with
      | none => none
      | some (address, mask) =>
        clausesOf rest fromSeen true { e with destination := address, destinationMask := mask }
    else none

/-- The clauses that `clausesOf` passes, one by one. -/
inductive ClauseSteps : List Word → (fromSeen toSeen : Bool) → Endpoints → Endpoints → Prop
  | done {fromSeen toSeen : Bool} {e : Endpoints} : ClauseSteps [] fromSeen toSeen e e
  | source {word : Word} {rest : List Word} {toSeen : Bool} {e e' : Endpoints} {address mask : UInt32}
      (h : operandOf word e.source e.sourceMask = some (address, mask))
      (hrest : ClauseSteps rest true toSeen { e with source := address, sourceMask := mask } e') :
      ClauseSteps (bytesOf "from" :: word :: rest) false toSeen e e'
  | destination {word : Word} {rest : List Word} {fromSeen : Bool} {e e' : Endpoints} {address mask : UInt32}
      (h : operandOf word e.destination e.destinationMask = some (address, mask))
      (hrest : ClauseSteps rest fromSeen true { e with destination := address, destinationMask := mask } e') :
      ClauseSteps (bytesOf "to" :: word :: rest) fromSeen false e e'

theorem clauseSteps_of_clausesOf {words : List Word} {fromSeen toSeen : Bool} {e e' : Endpoints}
    (h : clausesOf words fromSeen toSeen e = some e') : ClauseSteps words fromSeen toSeen e e' := by
  induction words, fromSeen, toSeen, e using clausesOf.induct with
  | case1 fromSeen toSeen e =>
    obtain rfl := Option.some.inj h
    exact .done
  | case2 => cases h
  | case3 fromSeen toSeen e key word rest hkey hnone =>
    rw [clausesOf, if_pos hkey, hnone] at h
    cases h
  | case4 fromSeen toSeen e key word rest hkey address mask hvalue ih =>
    rw [clausesOf, if_pos hkey, hvalue] at h
    obtain ⟨rfl, rfl⟩ := hkey
    exact .source hvalue (ih h)
  | case5 fromSeen toSeen e key word rest hfrom hkey hnone =>
    rw [clausesOf, if_neg hfrom, if_pos hkey, hnone] at h
    cases h
  | case6 fromSeen toSeen e key word rest hfrom hkey address mask hvalue ih =>
    rw [clausesOf, if_neg hfrom, if_pos hkey, hvalue] at h
    obtain ⟨rfl, rfl⟩ := hkey
    exact .destination hvalue (ih h)
  | case7 fromSeen toSeen e key word rest hfrom hto =>
    rw [clausesOf, if_neg hfrom, if_neg hto] at h
    cases h

theorem clausesOf_eq_some {words : List Word} (hwords : ∀ word ∈ words, ∀ c ∈ word, c ≠ 0)
    {e : Endpoints} : clausesOf words false false {} = some e ↔ EitherOrder words e := by
  constructor
  · intro h
    cases clauseSteps_of_clausesOf h with
    | done => exact .inOrder .omitted
    | @source first _ _ _ _ source sourceMask hfirst hrest =>
      have hsource := (operandOf_eq_some (hwords first (by simp))).mp hfirst
      cases hrest with
      | done => exact .inOrder (.source hsource)
      | @destination second _ _ _ _ destination destinationMask hsecond hrest =>
        have hdestination := (operandOf_eq_some (hwords second (by simp))).mp hsecond
        cases hrest with
        | done => exact .inOrder (.both hsource hdestination)
    | @destination first _ _ _ _ destination destinationMask hfirst hrest =>
      have hdestination := (operandOf_eq_some (hwords first (by simp))).mp hfirst
      cases hrest with
      | done => exact .inOrder (.destination hdestination)
      | @source second _ _ _ _ source sourceMask hsecond hrest =>
        have hsource := (operandOf_eq_some (hwords second (by simp))).mp hsecond
        cases hrest with
        | done => exact .swapped hdestination hsource
  · have hto : bytesOf "to" ≠ bytesOf "from" := by decide
    intro h
    cases h with
    | swapped hfirst hsecond =>
      have hfirst := (operandOf_eq_some (hwords _ (by simp))).mpr hfirst
      have hsecond := (operandOf_eq_some (hwords _ (by simp))).mpr hsecond
      simp [clausesOf, hto, hfirst, hsecond]
    | inOrder h =>
      cases h with
      | omitted => rfl
      | source h =>
        have h := (operandOf_eq_some (hwords _ (by simp))).mpr h
        simp [clausesOf, h]
      | destination h =>
        have h := (operandOf_eq_some (hwords _ (by simp))).mpr h
        simp [clausesOf, hto, h]
      | both hfirst hsecond =>
        have hfirst := (operandOf_eq_some (hwords _ (by simp))).mpr hfirst
        have hsecond := (operandOf_eq_some (hwords _ (by simp))).mpr hsecond
        simp [clausesOf, hto, hfirst, hsecond]

/-! ## Whole commands -/

/-- The direction and the words behind it. -/
def directionOf : List Word → UInt8 × List Word
  | [] => (0, [])
  | word :: rest =>
    if word = bytesOf "in" then (0, rest) else if word = bytesOf "out" then (1, rest) else (0, word :: rest)

def ruleOf : List Word → Option Request
  | [] => none
  | first :: rest => do
    let allow ← actionOf first
    let (direction, rest) := directionOf rest
    let name ← rest.head?
    let (protocol, port) ← serviceOf name
    let endpoints ← clausesOf rest.tail false false {}
    some (.append (ordinaryRule allow direction protocol port endpoints))

def blockOf (word : Word) : Option Request :=
  (cidrOf word).map fun (source, mask) ↦ .append (blockRule source mask)

def defaultOf (word direction : Word) : Option Request :=
  match actionOf word with
  | none => none
  | some allow =>
    if direction = bytesOf "incoming" then some (.setDefault 0 allow)
    else if direction = bytesOf "outgoing" then some (.setDefault fwOut allow)
    else none

/-- The commands with operands. -/
def operandForm (words : List Word) : Option Request :=
  match words with
  | [first, second] =>
    if first = bytesOf "delete" then (numberOf second fwRules).map .delete else ruleOf words
  | [first, second, third] =>
    if first = bytesOf "block" ∧ second = bytesOf "from" then blockOf third
    else if first = bytesOf "default" then defaultOf second third
    else ruleOf words
  | _ => ruleOf words

def requestOf (words : List Word) : Option Request :=
  match fixedForms.lookup words with
  | some request => some request
  | none => operandForm words

theorem directionOf_append {between clauses : List Word} {name : Word} {direction protocol : UInt8}
    {port : UInt16} (h : DirectionText between direction) (hservice : serviceOf name = some (protocol, port)) :
    directionOf (between ++ name :: clauses) = (direction, name :: clauses) := by
  cases h with
  | incoming => rfl
  | outgoing => rfl
  | omitted =>
    have hin : name ≠ bytesOf "in" := by
      rintro rfl
      rw [show serviceOf (bytesOf "in") = none by decide] at hservice
      cases hservice
    have hout : name ≠ bytesOf "out" := by
      rintro rfl
      rw [show serviceOf (bytesOf "out") = none by decide] at hservice
      cases hservice
    rw [List.nil_append, directionOf, if_neg hin, if_neg hout]

theorem directionOf_eq {words rest : List Word} {direction : UInt8} (h : directionOf words = (direction, rest)) :
    ∃ between, DirectionText between direction ∧ words = between ++ rest := by
  cases words with
  | nil =>
    obtain ⟨rfl, rfl⟩ := Prod.mk.inj h
    exact ⟨[], .omitted, rfl⟩
  | cons word words =>
    rw [directionOf] at h
    by_cases hin : word = bytesOf "in"
    · rw [if_pos hin] at h
      obtain ⟨rfl, rfl⟩ := Prod.mk.inj h
      rw [hin]
      exact ⟨_, .incoming, rfl⟩
    rw [if_neg hin] at h
    by_cases hout : word = bytesOf "out"
    · rw [if_pos hout] at h
      obtain ⟨rfl, rfl⟩ := Prod.mk.inj h
      rw [hout]
      exact ⟨_, .outgoing, rfl⟩
    · rw [if_neg hout] at h
      obtain ⟨rfl, rfl⟩ := Prod.mk.inj h
      exact ⟨_, .omitted, rfl⟩

/-- The parts of a rule that is read. -/
theorem ruleOf_eq_some {first : Word} {rest : List Word} {request : Request} :
    ruleOf (first :: rest) = some request ↔ ∃ allow direction name clauses protocol port endpoints,
      actionOf first = some allow ∧ directionOf rest = (direction, name :: clauses) ∧
      serviceOf name = some (protocol, port) ∧ clausesOf clauses false false {} = some endpoints ∧
      request = .append (ordinaryRule allow direction protocol port endpoints) := by
  simp only [ruleOf, Option.bind_eq_bind, Option.bind_eq_some_iff, Option.some.injEq]
  constructor
  · rintro ⟨allow, haction, name, hname, ⟨protocol, port⟩, hservice, endpoints, hclauses, rfl⟩
    obtain ⟨clauses, hrest⟩ := List.head?_eq_some_iff.mp hname
    rw [hrest, List.tail_cons] at hclauses
    refine ⟨allow, _, name, clauses, protocol, port, endpoints, haction, ?_, hservice, hclauses, rfl⟩
    rw [← hrest]
  · rintro ⟨allow, direction, name, clauses, protocol, port, endpoints, haction, hdirection, hservice,
      hclauses, rfl⟩
    rw [hdirection]
    exact ⟨allow, haction, name, rfl, (protocol, port), hservice, endpoints, hclauses, rfl⟩

section
variable {words : List Word} (hwords : ∀ word ∈ words, ∀ c ∈ word, c ≠ 0) {request : Request}
include hwords

/-- A rule is read as the grammar says. -/
theorem grammar_of_ruleOf (h : ruleOf words = some request) : Grammar EitherOrder words request := by
  cases words with
  | nil => cases h
  | cons first rest =>
    obtain ⟨allow, direction, name, clauses, protocol, port, endpoints, haction, hdirection, hservice,
      hclauses, rfl⟩ := ruleOf_eq_some.mp h
    obtain ⟨between, htext, rfl⟩ := directionOf_eq hdirection
    refine .rule (actionOf_eq_some.mp haction) htext (serviceOf_eq_some.mp hservice) ?_
    refine (clausesOf_eq_some fun word hword ↦ hwords word ?_).mp hclauses
    exact List.mem_cons_of_mem _ (List.mem_append_right _ (List.mem_cons_of_mem _ hword))

theorem grammar_of_operandForm (h : operandForm words = some request) : Grammar EitherOrder words request := by
  unfold operandForm at h
  split at h
  · rename_i first second
    split at h
    · rename_i hfirst
      obtain ⟨n, hnumber, rfl⟩ := Option.map_eq_some_iff.mp h
      obtain ⟨htext, rfl⟩ := numberOf_eq_some.mp hnumber
      exact hfirst ▸ .delete htext
    · exact grammar_of_ruleOf hwords h
  · rename_i first second third
    split at h
    · rename_i hform
      obtain ⟨⟨address, mask⟩, hcidr, rfl⟩ := Option.map_eq_some_iff.mp h
      obtain ⟨whole, bits, htext, rfl, rfl⟩ := exists_cidrText (hwords third (by simp)) hcidr
      obtain ⟨rfl, rfl⟩ := hform
      exact .block htext
    split at h
    · rename_i hfirst
      subst hfirst
      unfold defaultOf at h
      cases haction : actionOf second with
      | none =>
        rw [haction] at h
        cases h
      | some allow =>
        simp only [haction] at h
        split at h
        · rename_i hthird
          obtain rfl := Option.some.inj h
          exact hthird ▸ .defaultIn (actionOf_eq_some.mp haction)
        · rw [Option.ite_none_right_eq_some, Option.some.injEq] at h
          obtain ⟨rfl, rfl⟩ := h
          exact .defaultOut (actionOf_eq_some.mp haction)
    · exact grammar_of_ruleOf hwords h
  · exact grammar_of_ruleOf hwords h

/-- The function reads what the grammar describes. -/
theorem grammar_of_requestOf (h : requestOf words = some request) : Grammar EitherOrder words request := by
  unfold requestOf at h
  cases hfixed : fixedForms.lookup words with
  | none =>
    rw [hfixed] at h
    exact grammar_of_operandForm hwords h
  | some found =>
    rw [hfixed] at h
    obtain rfl := Option.some.inj h
    obtain ⟨front, back, hsplit, -⟩ := List.lookup_eq_some_iff.mp hfixed
    refine .fixed ?_
    rw [hsplit]
    exact List.mem_append_right _ List.mem_cons_self

omit hwords in
theorem lookup_fixedForms {first : Word} {rest : List Word}
    (h : ∀ form ∈ fixedForms, form.1.head? ≠ some first) : fixedForms.lookup (first :: rest) = none := by
  refine List.lookup_eq_none_iff.mpr fun form hform ↦ ?_
  refine bne_iff_ne.mpr fun hsame ↦ h form hform ?_
  rw [← hsame]
  rfl

omit hwords in
theorem operandForm_of_action {first : Word} {rest : List Word} {allow : Bool}
    (h : ActionText first allow) : operandForm (first :: rest) = ruleOf (first :: rest) := by
  have hfirst : first ≠ bytesOf "delete" ∧ first ≠ bytesOf "block" ∧ first ≠ bytesOf "default" := by
    cases h <;> decide
  match rest with
  | [] => rfl
  | [second] => exact if_neg hfirst.1
  | [second, third] =>
    change (if first = bytesOf "block" ∧ second = bytesOf "from" then blockOf third
      else if first = bytesOf "default" then defaultOf second third else ruleOf _) = _
    rw [if_neg fun h ↦ hfirst.2.1 h.1, if_neg hfirst.2.2]
  | _ :: _ :: _ :: _ => rfl

/-- The function reads everything that the grammar describes. -/
theorem requestOf_of_grammar (h : Grammar EitherOrder words request) : requestOf words = some request := by
  cases h with
  | fixed h =>
    have hall : ∀ form ∈ fixedForms, requestOf form.1 = some form.2 := by decide
    exact hall _ h
  | delete h =>
    rw [requestOf, lookup_fixedForms (by decide)]
    change (numberOf _ fwRules).map Request.delete = _
    rw [numberOf_eq_some.mpr ⟨h, rfl⟩]
    rfl
  | block h =>
    rw [requestOf, lookup_fixedForms (by decide)]
    change blockOf _ = _
    rw [blockOf, cidrOf_of_cidrText h]
    rfl
  | defaultIn h =>
    rw [requestOf, lookup_fixedForms (by decide)]
    change defaultOf _ _ = _
    rw [defaultOf, actionOf_eq_some.mpr h]
    rfl
  | defaultOut h =>
    rw [requestOf, lookup_fixedForms (by decide)]
    change defaultOf _ _ = _
    rw [defaultOf, actionOf_eq_some.mpr h]
    rfl
  | @rule word name allow direction protocol port between clauses endpoints haction hdirection hservice
      hclauses =>
    have hno : ∀ form ∈ fixedForms, form.1.head? ≠ some word := by
      cases haction <;> decide
    have hname := serviceOf_eq_some.mpr hservice
    have hbehind : ∀ other ∈ clauses, ∀ c ∈ other, c ≠ 0 := fun other hother ↦ hwords other
      (List.mem_cons_of_mem _ (List.mem_append_right _ (List.mem_cons_of_mem _ hother)))
    rw [requestOf, lookup_fixedForms hno]
    change operandForm _ = _
    rw [operandForm_of_action haction]
    exact ruleOf_eq_some.mpr ⟨allow, direction, name, clauses, protocol, port, endpoints,
      actionOf_eq_some.mpr haction, directionOf_append hdirection hname, hname,
      (clausesOf_eq_some hbehind).mpr hclauses, rfl⟩

theorem requestOf_eq_some : requestOf words = some request ↔ Grammar EitherOrder words request :=
  ⟨grammar_of_requestOf hwords, requestOf_of_grammar hwords⟩

end

/-- No command has more than seven words. -/
theorem Grammar.length_le {words : List Word} {request : Request} (h : Grammar EitherOrder words request) :
    words.length ≤ 7 := by
  cases h with
  | fixed h =>
    have hall : ∀ form ∈ fixedForms, form.1.length ≤ 7 := by decide
    exact hall _ h
  | delete h => simp
  | block h => simp
  | defaultIn h => simp
  | defaultOut h => simp
  | @rule word name allow direction protocol port between clauses endpoints haction hdirection hservice
      hclauses =>
    have hbetween : between.length ≤ 1 := by cases hdirection <;> simp
    have hclauses : clauses.length ≤ 4 := by
      cases hclauses with
      | inOrder h => cases h <;> simp
      | swapped => simp
    rw [List.length_cons, List.length_append, List.length_cons]
    omega

end JordyOS.Policy
