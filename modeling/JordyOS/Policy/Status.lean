import JordyOS.Net.Number
import JordyOS.Policy.Answers
import Mathlib.Data.List.DropRight

/-!
# The rule listing

`fw_status` prints a line for each rule, in the order of the table.  Without its number and its hits a line
is a command again, and it appends the rule it was printed for, unless the rule blocks every source.
-/

namespace JordyOS.Policy

open Machine Net

/-! ## The code -/

section Code

-- What the buffer of `net_print_number` holds before it is used.
variable (stack : Fin 11 → UInt8)

/-- What `sys_write` puts out: the bytes up to the terminator. -/
def sysWrite : (text : List UInt8) → Scan (List UInt8)
  | [] => fault
  | c :: text =>
    if c = 0 then .ok []
    else do
      let rest ← sysWrite text
      .ok (c :: rest)

/-- The output of `net_print_number`. -/
def printNumber (n : UInt32) : Scan (List UInt8) := do
  let text ← netPrintNumber stack n
  sysWrite text

/-- The four rounds of the loop of `net_print_ip`. -/
def netPrintIp (ip : UInt32) : Scan (List UInt8) := do
  let a ← printNumber stack (ip >>> 24 &&& 255)
  let b ← printNumber stack (ip >>> 16 &&& 255)
  let c ← printNumber stack (ip >>> 8 &&& 255)
  let d ← printNumber stack (ip >>> 0 &&& 255)
  .ok (a ++ bytesOf "." ++ b ++ bytesOf "." ++ c ++ bytesOf "." ++ d)

/-- The loop that counts the leading bits of a mask. -/
def leadingLoop : (rounds : ℕ) → (mask leading : UInt32) → Scan UInt32
  | 0, _, _ => fault
  | rounds + 1, mask, leading =>
    if mask = 0 then .ok leading else leadingLoop rounds (mask <<< 1) (leading + 1)

/-- A mask is shifted out after 32 rounds. -/
def cidr (ip mask : UInt32) : Scan (List UInt8) :=
  if mask = 0 then .ok (bytesOf "any")
  else do
    let ip ← netPrintIp stack ip
    let leading ← leadingLoop 33 mask 0
    let leading ← printNumber stack leading
    .ok (ip ++ bytesOf "/" ++ leading)

def protocol (p : UInt8) : String :=
  if p = netIcmp then "icmp" else if p = netTcp then "tcp" else if p = netUdp then "udp" else "all"

/-- The line for rule `i` of the table. -/
def fwStatusRule (fw : Firewall) (i : ℕ) : Scan (List UInt8) := do
  let r := fw.rules i
  let number ← printNumber stack (UInt32.ofNat (i + 1))
  if r.block then
    let source ← cidr stack r.source r.sourceMask
    let hits ← printNumber stack r.hits
    .ok (number ++ bytesOf " block from " ++ source ++ bytesOf " hits=" ++ hits ++ bytesOf "\n")
  else
    let port ← (if r.port ≠ 0 then do
        let port ← printNumber stack r.port.toUInt32
        .ok (port ++ bytesOf "/")
      else .ok [])
    let source ← cidr stack r.source r.sourceMask
    let destination ← cidr stack r.destination r.destinationMask
    let hits ← printNumber stack r.hits
    .ok (number ++ bytesOf (if r.allow then " allow " else " deny ") ++
      bytesOf (if r.direction = 0 then "in " else "out ") ++ port ++ bytesOf (protocol r.protocol) ++
      bytesOf " from " ++ source ++ bytesOf " to " ++ destination ++ bytesOf " hits=" ++ hits ++ bytesOf "\n")

/-- The lines for the rules from `i` on. -/
def fwStatusRules (fw : Firewall) : (left i : ℕ) → Scan (List UInt8)
  | 0, _ => .ok []
  | left + 1, i => do
    let line ← fwStatusRule stack fw i
    let lines ← fwStatusRules fw left (i + 1)
    .ok (line ++ lines)

def fwStatus (fw : Firewall) : Scan (List UInt8) := do
  let count ← printNumber stack (UInt32.ofNat fw.count)
  let lines ← fwStatusRules stack fw fw.count 0
  .ok (bytesOf "Native JordyOS firewall: " ++ bytesOf (if fw.enabled then "enabled\n" else "disabled\n") ++
    bytesOf "Backend: eBPF interpreter; upstream ebpfw XDP + stateless policy.\n" ++
    bytesOf "Defaults: incoming " ++ bytesOf (if fw.defaults 0 then "allow" else "deny") ++
    bytesOf ", outgoing " ++ bytesOf (if fw.defaults fwOut then "allow\n" else "deny\n") ++
    bytesOf "Rules: " ++ count ++ bytesOf "/32 (blocks first; ordinary first match)\n" ++ lines)

end Code

/-! ## What is printed -/

variable {stack : Fin 11 → UInt8} {word text : List UInt8} {ip mask : UInt32} {bits : ℕ}

theorem sysWrite_eq (hword : ∀ c ∈ word, c ≠ 0) (rest : List UInt8) : sysWrite (word ++ 0 :: rest) = .ok word := by
  induction word with
  | nil => rfl
  | cons c word ih =>
    rw [List.cons_append, sysWrite, if_neg (hword c List.mem_cons_self),
      ih fun d hd ↦ hword d (List.mem_cons_of_mem c hd)]
    rfl

theorem printNumber_eq (stack : Fin 11 → UInt8) (n : UInt32) :
    printNumber stack n = .ok (decimalText n.toNat) := by
  rw [printNumber, netPrintNumber_eq, ok_bind, sysWrite_eq fun c hc ↦ (isDigit_of_mem_decimalText hc).ne_zero]

/-- Octet `k` of an address, the first one in the highest byte. -/
def octet (ip : UInt32) (k : ℕ) : ℕ := ip.toNat / 2 ^ (24 - 8 * k) % 2 ^ 8

/-- The text of an address. -/
def ipText (ip : UInt32) : List UInt8 :=
  decimalText (octet ip 0) ++ dot :: (decimalText (octet ip 1) ++ dot :: (decimalText (octet ip 2) ++
    dot :: decimalText (octet ip 3)))

theorem toNat_and_255 (n : UInt32) : (n &&& 255).toNat = n.toNat % 2 ^ 8 := by
  have hmask : (255 : UInt32).toNat = 2 ^ 8 - 1 := rfl
  rw [UInt32.toNat_and, hmask, Nat.and_two_pow_sub_one_eq_mod]

theorem netPrintIp_eq (stack : Fin 11 → UInt8) (ip : UInt32) : netPrintIp stack ip = .ok (ipText ip) := by
  have hoctet (shift : UInt32) (k : ℕ) (hshift : shift.toNat % 32 = 24 - 8 * k) :
      (ip >>> shift &&& 255).toNat = octet ip k := by
    rw [toNat_and_255, UInt32.toNat_shiftRight, hshift, Nat.shiftRight_eq_div_pow, octet]
  have hdot : bytesOf "." = [dot] := rfl
  rw [netPrintIp, printNumber_eq, printNumber_eq, printNumber_eq, printNumber_eq, hoctet 24 0 rfl, hoctet 16 1 rfl,
    hoctet 8 2 rfl, hoctet 0 3 rfl, hdot, ipText]
  simp only [ok_bind, List.append_assoc, List.cons_append, List.nil_append]

theorem leadingLoop_eq (hbits : bits ≤ 32) : leadingLoop 33 (prefixMask bits) 0 = .ok (UInt32.ofNat bits) := by
  have hall : ∀ n : Fin 33, leadingLoop 33 (prefixMask n) 0 = .ok (UInt32.ofNat n) := by decide
  exact hall ⟨bits, Nat.lt_succ_of_le hbits⟩

theorem prefixMask_eq_zero (hbits : bits ≤ 32) : prefixMask bits = 0 ↔ bits = 0 := by
  have hall : ∀ n : Fin 33, prefixMask n = 0 ↔ n.val = 0 := by decide
  exact hall ⟨bits, Nat.lt_succ_of_le hbits⟩

/-- The text of a prefix. -/
def operandText (ip : UInt32) (bits : ℕ) : List UInt8 :=
  if bits = 0 then bytesOf "any" else ipText ip ++ slash :: decimalText bits

theorem cidr_eq (stack : Fin 11 → UInt8) (ip : UInt32) (hbits : bits ≤ 32) :
    cidr stack ip (prefixMask bits) = .ok (operandText ip bits) := by
  rw [cidr, operandText]
  by_cases hzero : bits = 0
  · rw [if_pos hzero, if_pos ((prefixMask_eq_zero hbits).mpr hzero)]
  · have hslash : bytesOf "/" = [slash] := rfl
    have hvalue : (UInt32.ofNat bits).toNat = bits := UInt32.toNat_ofNat_of_lt' (by rw [UInt32.size]; omega)
    rw [if_neg hzero, if_neg (mt (prefixMask_eq_zero hbits).mp hzero), netPrintIp_eq, ok_bind,
      leadingLoop_eq hbits, ok_bind, printNumber_eq, ok_bind, hvalue, hslash, List.append_assoc,
      List.singleton_append]

/-! ## Printed operands -/

theorem octet_decimalText {n : ℕ} (hn : n ≤ 255) : Octet (decimalText n) where
  digits _ := isDigit_of_mem_decimalText
  nonempty := decimalText_ne_nil n
  short := length_decimalText_le (by decide) (by omega)
  small := by rwa [decimalValue_decimalText]

theorem octet_le (ip : UInt32) (k : ℕ) : octet ip k ≤ 255 := Nat.le_of_lt_succ (Nat.mod_lt _ (by decide))

theorem address_octets (ip : UInt32) : address (octet ip 0) (octet ip 1) (octet ip 2) (octet ip 3) = ip := by
  have hword := ip.toNat_lt
  rw [← UInt32.toNat_inj, address, UInt32.toNat_ofNat', octet, octet, octet, octet]
  omega

/-- A printed prefix is a prefix with the same address. -/
theorem cidrText_printed (ip : UInt32) (hbits : bits ≤ 32) :
    CidrText (ipText ip ++ slash :: decimalText bits) ip bits := by
  have htail : PrefixLength (slash :: decimalText bits) bits := by
    have hgiven := PrefixLength.given (fun _ ↦ isDigit_of_mem_decimalText) (decimalText_ne_nil bits)
      (by rw [decimalValue_decimalText]; exact hbits)
    rwa [decimalValue_decimalText] at hgiven
  have htext := CidrText.mk (octet_decimalText (octet_le ip 0)) (octet_decimalText (octet_le ip 1))
    (octet_decimalText (octet_le ip 2)) (octet_decimalText (octet_le ip 3)) htail
  simp only [decimalValue_decimalText, address_octets] at htext
  simpa only [ipText, List.append_assoc, List.cons_append] using htext

/-- A mask of leading bits and an address that has no others. -/
def Trimmed (address mask : UInt32) : Prop :=
  ∃ bits ≤ 32, mask = prefixMask bits ∧ address &&& mask = address

theorem trimmed_zero : Trimmed 0 0 := ⟨0, Nat.zero_le 32, by decide, by decide⟩

theorem bits_le_of_cidrText {whole : UInt32} (h : CidrText word whole bits) : bits ≤ 32 := by
  cases h with
  | mk _ _ _ _ htail => exact htail.le

theorem trimmed_of_cidrText {whole : UInt32} (h : CidrText word whole bits) :
    Trimmed (whole &&& prefixMask bits) (prefixMask bits) :=
  ⟨bits, bits_le_of_cidrText h, rfl, by rw [UInt32.and_assoc, UInt32.and_self]⟩

theorem OperandText.trimmed {address : UInt32} (h : OperandText word address mask) : Trimmed address mask := by
  cases h with
  | any => exact trimmed_zero
  | cidr h => exact trimmed_of_cidrText h

/-- The clauses leave trimmed operands. -/
theorem EitherOrder.trimmed {words : List Word} {e : Endpoints} (h : EitherOrder words e) :
    Trimmed e.source e.sourceMask ∧ Trimmed e.destination e.destinationMask := by
  cases h with
  | swapped hfirst hsecond => exact ⟨hsecond.trimmed, hfirst.trimmed⟩
  | inOrder h =>
    cases h with
    | omitted => exact ⟨trimmed_zero, trimmed_zero⟩
    | source h => exact ⟨h.trimmed, trimmed_zero⟩
    | destination h => exact ⟨trimmed_zero, h.trimmed⟩
    | both hfirst hsecond => exact ⟨hfirst.trimmed, hsecond.trimmed⟩

/-- A printed operand is read back. -/
theorem operandText_read {address : UInt32} (hbits : bits ≤ 32) (haddress : address &&& prefixMask bits = address) :
    OperandText (operandText address bits) address (prefixMask bits) := by
  unfold operandText
  by_cases hzero : bits = 0
  · have hmask : prefixMask bits = 0 := (prefixMask_eq_zero hbits).mpr hzero
    have hnone : address = 0 := by rw [← haddress, hmask, UInt32.and_zero]
    rw [if_pos hzero, hmask, hnone]
    exact .any
  · rw [if_neg hzero]
    have htext := OperandText.cidr (cidrText_printed address hbits)
    rwa [haddress] at htext

/-- The text of a service. -/
def serviceText (p : UInt8) (port : UInt16) : List UInt8 :=
  (if port ≠ 0 then decimalText port.toNat ++ [slash] else []) ++ bytesOf (protocol p)

/-- A printed service is read back. -/
theorem serviceText_read {p : UInt8} {port : UInt16} (h : ServiceText word p port) :
    ServiceText (serviceText p port) p port := by
  have hport {digits : List UInt8} (hdigits : NumberText digits 65535) (hpos : 0 < decimalValue digits) :
      (UInt16.ofNat (decimalValue digits)).toNat = decimalValue digits ∧
        UInt16.ofNat (decimalValue digits) ≠ 0 := by
    have hsmall := hdigits.small
    have hvalue : (UInt16.ofNat (decimalValue digits)).toNat = decimalValue digits :=
      UInt16.toNat_ofNat_of_lt' (by rw [UInt16.size]; omega)
    refine ⟨hvalue, fun hzero ↦ ?_⟩
    rw [hzero] at hvalue
    exact absurd hvalue (Nat.ne_of_lt hpos)
  have hnumber {n : ℕ} (hn : n ≤ 65535) : NumberText (decimalText n) 65535 :=
    ⟨decimalText_ne_nil n, fun _ ↦ isDigit_of_mem_decimalText, by rwa [decimalValue_decimalText]⟩
  cases h with
  | all => exact .all
  | icmp => exact .icmp
  | tcp => exact .tcp
  | udp => exact .udp
  | @tcpPort digits hdigits hpos =>
    obtain ⟨hvalue, hnonzero⟩ := hport hdigits hpos
    have htext := ServiceText.tcpPort (hnumber hdigits.small) (by rwa [decimalValue_decimalText])
    rw [decimalValue_decimalText] at htext
    rw [serviceText, if_pos hnonzero, hvalue, List.append_assoc]
    exact htext
  | @udpPort digits hdigits hpos =>
    obtain ⟨hvalue, hnonzero⟩ := hport hdigits hpos
    have htext := ServiceText.udpPort (hnumber hdigits.small) (by rwa [decimalValue_decimalText])
    rw [decimalValue_decimalText] at htext
    rw [serviceText, if_pos hnonzero, hvalue, List.append_assoc]
    exact htext

/-! ## Lines -/

def blank : UInt8 := ' '.toUInt8

/-- Words with a blank in front of each. -/
def spaced (words : List Word) : List UInt8 := words.flatMap (blank :: ·)

/-- A line without its number in front and its hits at the end. -/
def entered (line : List UInt8) : List UInt8 := (line.dropWhile (· ≠ blank)).rdropWhile (· ≠ blank)

/-- A byte that may stand in a word. -/
def Plain (c : UInt8) : Prop := c ≠ 0 ∧ isBlank c = false

instance (c : UInt8) : Decidable (Plain c) := inferInstanceAs (Decidable (_ ∧ _))

/-- A word that a command keeps in one piece. -/
structure Solid (word : Word) : Prop where
  nonempty : word ≠ []
  plain : ∀ c ∈ word, Plain c

instance (word : Word) : Decidable (Solid word) :=
  decidable_of_iff (word ≠ [] ∧ ∀ c ∈ word, Plain c) ⟨fun h ↦ ⟨h.1, h.2⟩, fun h ↦ ⟨h.nonempty, h.plain⟩⟩

theorem tokens_spaced {words : List Word} (hwords : ∀ word ∈ words, Solid word) :
    tokens isBlank (spaced words ++ [blank]) = words := by
  induction words with
  | nil => decide
  | cons word words ih =>
    obtain ⟨hword, hlater⟩ := List.forall_mem_cons.mp hwords
    have hrest : ∃ rest, spaced words ++ [blank] = blank :: rest := by
      cases words with
      | nil => exact ⟨[], rfl⟩
      | cons next words => exact ⟨_, rfl⟩
    obtain ⟨rest, hrest⟩ := hrest
    have hblank : isBlank blank = true := by decide
    have hshape : spaced (word :: words) ++ [blank] = blank :: (word ++ blank :: rest) := by
      rw [← hrest, spaced, List.flatMap_cons, ← spaced, List.append_assoc]
      rfl
    have hsame := ih hlater
    rw [hrest, tokens_cons hblank] at hsame
    rw [hshape, tokens_cons hblank, tokens_word_append hword.nonempty (fun c hc ↦ (hword.plain c hc).2) hblank, hsame]

theorem plain_of_isDigit {c : UInt8} (h : IsDigit c) : Plain c := by
  refine ⟨h.ne_zero, ?_⟩
  have hspace : c ≠ ' '.toUInt8 := by
    rintro rfl
    exact absurd h (by decide)
  have htab : c ≠ '\t'.toUInt8 := by
    rintro rfl
    exact absurd h (by decide)
  rw [isBlank, beq_eq_false_iff_ne.mpr hspace, beq_eq_false_iff_ne.mpr htab]
  rfl

/-- What stands between the number and the hits. -/
theorem entered_line {words : List Word} (number hits : ℕ) (hwords : words ≠ []) :
    entered (decimalText number ++ (spaced words ++ blank :: (bytesOf "hits=" ++ decimalText hits ++ bytesOf "\n"))) =
      spaced words ++ [blank] := by
  have hdigit {n : ℕ} : ∀ c ∈ decimalText n, c ≠ blank := by
    rintro c hc rfl
    exact absurd (isDigit_of_mem_decimalText hc) (by decide)
  have hfront : ∀ c ∈ decimalText number, (decide (c ≠ blank)) = true := fun c hc ↦ decide_eq_true (hdigit c hc)
  have hback : ∀ c ∈ bytesOf "hits=" ++ decimalText hits ++ bytesOf "\n", (decide (c ≠ blank)) = true := by
    intro c hc
    rw [List.mem_append, List.mem_append] at hc
    rcases hc with (hc | hc) | hc
    · have hall : ∀ c ∈ bytesOf "hits=", (decide (c ≠ blank)) = true := by decide
      exact hall c hc
    · exact decide_eq_true (hdigit c hc)
    · have hall : ∀ c ∈ bytesOf "\n", (decide (c ≠ blank)) = true := by decide
      exact hall c hc
  have hshape : spaced words ++ blank :: (bytesOf "hits=" ++ decimalText hits ++ bytesOf "\n") =
      spaced words ++ [blank] ++ (bytesOf "hits=" ++ decimalText hits ++ bytesOf "\n") := List.append_cons _ _ _
  have hkept : ((spaced words ++ [blank]) ++ (bytesOf "hits=" ++ decimalText hits ++ bytesOf "\n")).dropWhile
      (· ≠ blank) = spaced words ++ [blank] ++ (bytesOf "hits=" ++ decimalText hits ++ bytesOf "\n") := by
    obtain ⟨word, words, rfl⟩ := List.exists_cons_of_ne_nil hwords
    rfl
  unfold entered
  rw [List.dropWhile_append_of_pos hfront, hshape, hkept, List.rdropWhile, List.reverse_append,
    List.dropWhile_append_of_pos fun c hc ↦ hback c (List.mem_reverse.mp hc), ← List.rdropWhile,
    List.rdropWhile_concat_neg _ _ _ (by decide)]

/-! ## Rules from commands -/

/-- The words that `fw_status` prints for a rule, with the numbers of bits of its masks. -/
def ruleWords (rule : FirewallRule) (sourceBits destinationBits : ℕ) : List Word :=
  if rule.block then [bytesOf "block", bytesOf "from", operandText rule.source sourceBits]
  else [bytesOf (if rule.allow then "allow" else "deny"), bytesOf (if rule.direction = 0 then "in" else "out"),
    serviceText rule.protocol rule.port, bytesOf "from", operandText rule.source sourceBits, bytesOf "to",
    operandText rule.destination destinationBits]

/-- A rule that a command asks for. -/
def Asked (rule : FirewallRule) : Prop := ∃ words, Grammar EitherOrder words (.append rule)

/-- What is known of a rule that a command asks for. -/
inductive Shape : FirewallRule → Prop
  | block {source mask : UInt32} (h : Trimmed source mask) : Shape (blockRule source mask)
  | ordinary {allow : Bool} {direction protocol : UInt8} {port : UInt16} {e : Endpoints} {between : List Word}
      {name : Word} (hdirection : DirectionText between direction) (hservice : ServiceText name protocol port)
      (hsource : Trimmed e.source e.sourceMask) (hdestination : Trimmed e.destination e.destinationMask) :
      Shape (ordinaryRule allow direction protocol port e)

theorem Asked.shape {rule : FirewallRule} (h : Asked rule) : Shape rule := by
  obtain ⟨words, h⟩ := h
  generalize hrequest : Request.append rule = request at h
  cases h with
  | fixed hfixed =>
    have hall : ∀ form ∈ fixedForms, ∀ r, Request.append r ≠ form.2 := by simp [fixedForms]
    exact absurd hrequest (hall _ hfixed rule)
  | delete => cases hrequest
  | defaultIn => cases hrequest
  | defaultOut => cases hrequest
  | block h =>
    obtain rfl := Request.append.inj hrequest
    exact .block (trimmed_of_cidrText h)
  | rule haction hdirection hservice hclauses =>
    obtain rfl := Request.append.inj hrequest
    exact .ordinary hdirection hservice hclauses.trimmed.1 hclauses.trimmed.2

theorem line_block (r : FirewallRule) (hblock : r.block = true) (number hits : List UInt8) (bits more : ℕ) :
    number ++ bytesOf " block from " ++ operandText r.source bits ++ bytesOf " hits=" ++ hits ++ bytesOf "\n" =
      number ++ (spaced (ruleWords r bits more) ++ blank :: (bytesOf "hits=" ++ hits ++ bytesOf "\n")) := by
  have hfront : bytesOf " block from " = blank :: bytesOf "block" ++ blank :: bytesOf "from" ++ [blank] := rfl
  have hback : bytesOf " hits=" = blank :: bytesOf "hits=" := rfl
  rw [ruleWords, if_pos hblock, hfront, hback]
  simp only [spaced, List.flatMap_cons, List.flatMap_nil, List.append_assoc, List.cons_append, List.nil_append]

theorem line_ordinary (r : FirewallRule) (hblock : r.block = false) (number hits : List UInt8)
    (sourceBits destinationBits : ℕ) :
    number ++ bytesOf (if r.allow then " allow " else " deny ") ++
      bytesOf (if r.direction = 0 then "in " else "out ") ++
      (if r.port ≠ 0 then decimalText r.port.toNat ++ [slash] else []) ++ bytesOf (protocol r.protocol) ++
      bytesOf " from " ++ operandText r.source sourceBits ++ bytesOf " to " ++
      operandText r.destination destinationBits ++ bytesOf " hits=" ++ hits ++ bytesOf "\n" =
      number ++ (spaced (ruleWords r sourceBits destinationBits) ++
        blank :: (bytesOf "hits=" ++ hits ++ bytesOf "\n")) := by
  have haction : bytesOf (if r.allow then " allow " else " deny ") =
      blank :: bytesOf (if r.allow then "allow" else "deny") ++ [blank] := by
    cases r.allow <;> rfl
  have hdirection : bytesOf (if r.direction = 0 then "in " else "out ") =
      bytesOf (if r.direction = 0 then "in" else "out") ++ [blank] := by
    split <;> rfl
  have hfrom : bytesOf " from " = blank :: bytesOf "from" ++ [blank] := rfl
  have hto : bytesOf " to " = blank :: bytesOf "to" ++ [blank] := rfl
  have hback : bytesOf " hits=" = blank :: bytesOf "hits=" := rfl
  rw [ruleWords, hblock, if_neg Bool.false_ne_true, haction, hdirection, hfrom, hto, hback, serviceText]
  simp only [spaced, List.flatMap_cons, List.flatMap_nil, List.append_assoc, List.cons_append, List.nil_append]

/-- The line for a rule holds its words between the number and the hits. -/
theorem fwStatusRule_eq (stack : Fin 11 → UInt8) (fw : Firewall) {i sourceBits destinationBits : ℕ}
    (hsource : sourceBits ≤ 32 ∧ (fw.rules i).sourceMask = prefixMask sourceBits)
    (hdestination : destinationBits ≤ 32 ∧ (fw.rules i).destinationMask = prefixMask destinationBits) :
    ∃ number hits, fwStatusRule stack fw i = .ok (decimalText number ++
      (spaced (ruleWords (fw.rules i) sourceBits destinationBits) ++
        blank :: (bytesOf "hits=" ++ decimalText hits ++ bytesOf "\n"))) := by
  refine ⟨(UInt32.ofNat (i + 1)).toNat, (fw.rules i).hits.toNat, ?_⟩
  unfold fwStatusRule
  dsimp only
  rw [printNumber_eq, printNumber_eq, printNumber_eq, hsource.2, hdestination.2, cidr_eq stack _ hsource.1,
    cidr_eq stack _ hdestination.1]
  cases hblock : (fw.rules i).block with
  | true =>
    rw [← line_block _ hblock]
    rfl
  | false =>
    have hport : (fw.rules i).port.toUInt32.toNat = (fw.rules i).port.toNat := UInt16.toNat_toUInt32 _
    have hslash : bytesOf "/" = [slash] := rfl
    rw [← line_ordinary _ hblock, hport, hslash]
    by_cases hnone : (fw.rules i).port = 0
    · simp only [hnone, ne_eq, not_true_eq_false, if_false]
      rfl
    · simp only [ne_eq, hnone, not_false_eq_true, if_true]
      rfl

/-! ## The words as a command -/

theorem plain_of_mem_decimalText {c : UInt8} {n : ℕ} (hc : c ∈ decimalText n) : Plain c :=
  plain_of_isDigit (isDigit_of_mem_decimalText hc)

theorem solid_operandText (ip : UInt32) (bits : ℕ) : Solid (operandText ip bits) := by
  have hdot : Plain dot := by decide
  have hslash : Plain slash := by decide
  unfold operandText
  split
  · decide
  · refine ⟨List.append_ne_nil_of_right_ne_nil _ (List.cons_ne_nil _ _), fun c hc ↦ ?_⟩
    simp only [ipText, List.mem_append, List.mem_cons] at hc
    rcases hc with (hc | rfl | hc | rfl | hc | rfl | hc) | rfl | hc
    · exact plain_of_mem_decimalText hc
    · exact hdot
    · exact plain_of_mem_decimalText hc
    · exact hdot
    · exact plain_of_mem_decimalText hc
    · exact hdot
    · exact plain_of_mem_decimalText hc
    · exact hslash
    · exact plain_of_mem_decimalText hc

theorem solid_protocol (p : UInt8) : Solid (bytesOf (protocol p)) := by
  unfold protocol
  split
  · decide
  split
  · decide
  split
  · decide
  · decide

theorem solid_serviceText (p : UInt8) (port : UInt16) : Solid (serviceText p port) := by
  have hname := solid_protocol p
  refine ⟨List.append_ne_nil_of_right_ne_nil _ hname.nonempty, fun c hc ↦ ?_⟩
  rw [serviceText, List.mem_append] at hc
  rcases hc with hc | hc
  · split at hc
    · rw [List.mem_append, List.mem_singleton] at hc
      rcases hc with hc | rfl
      · exact plain_of_mem_decimalText hc
      · decide
    · cases hc
  · exact hname.plain c hc

theorem solid_ruleWords (rule : FirewallRule) (sourceBits destinationBits : ℕ) :
    ∀ word ∈ ruleWords rule sourceBits destinationBits, Solid word := by
  have hsource := solid_operandText rule.source sourceBits
  have hdestination := solid_operandText rule.destination destinationBits
  have hfrom : Solid (bytesOf "from") := by decide
  have hto : Solid (bytesOf "to") := by decide
  unfold ruleWords
  split
  · have hblock : Solid (bytesOf "block") := by decide
    simp only [List.forall_mem_cons, List.not_mem_nil, false_implies, implies_true, and_true]
    exact ⟨hblock, hfrom, hsource⟩
  · have haction : Solid (bytesOf (if rule.allow then "allow" else "deny")) := by
      cases rule.allow <;> decide
    have hdirection : Solid (bytesOf (if rule.direction = 0 then "in" else "out")) := by
      split <;> decide
    simp only [List.forall_mem_cons, List.not_mem_nil, false_implies, implies_true, and_true]
    exact ⟨haction, hdirection, solid_serviceText _ _, hfrom, hsource, hto, hdestination⟩

theorem spaced_nonzero {words : List Word} (hwords : ∀ word ∈ words, Solid word) :
    ∀ c ∈ spaced words ++ [blank], c ≠ 0 := by
  intro c hc
  rw [List.mem_append, List.mem_singleton, spaced, List.mem_flatMap] at hc
  rcases hc with ⟨word, hword, hc⟩ | rfl
  · rcases List.mem_cons.mp hc with rfl | hc
    · decide
    · exact ((hwords word hword).plain c hc).1
  · decide

/-- Printed words are a command of their own. -/
def enteredWords (words : List Word) (hwords : ∀ word ∈ words, Solid word) : CString :=
  ⟨spaced words ++ [blank], spaced_nonzero hwords⟩

/-- The words of an ordinary rule ask for it again. -/
theorem grammar_ruleWords_ordinary {rule : FirewallRule} (h : Shape rule) (hblock : rule.block = false) :
    ∃ sourceBits destinationBits,
      (sourceBits ≤ 32 ∧ rule.sourceMask = prefixMask sourceBits) ∧
      (destinationBits ≤ 32 ∧ rule.destinationMask = prefixMask destinationBits) ∧
      Grammar EitherOrder (ruleWords rule sourceBits destinationBits) (.append rule) := by
  cases h with
  | block => cases hblock
  | @ordinary allow direction protocol port e between name hdirection hservice hsource hdestination =>
    obtain ⟨sourceBits, hsourceBits, hsourceMask, hsource⟩ := hsource
    obtain ⟨destinationBits, hdestinationBits, hdestinationMask, hdestination⟩ := hdestination
    refine ⟨sourceBits, destinationBits, ⟨hsourceBits, hsourceMask⟩, ⟨hdestinationBits, hdestinationMask⟩, ?_⟩
    have haction : ActionText (bytesOf (if allow then "allow" else "deny")) allow := by
      cases allow
      · exact .deny
      · exact .allow
    have hdirection' : DirectionText [bytesOf (if direction = 0 then "in" else "out")] direction := by
      cases hdirection with
      | omitted => exact .incoming
      | incoming => exact .incoming
      | outgoing => exact .outgoing
    rw [hsourceMask] at hsource
    rw [hdestinationMask] at hdestination
    have hclauses := EitherOrder.inOrder (.both (operandText_read hsourceBits hsource)
      (operandText_read hdestinationBits hdestination))
    have hrule := Grammar.rule haction hdirection' (serviceText_read hservice) hclauses
    rw [← hsourceMask, ← hdestinationMask] at hrule
    exact hrule

/-- The words of a block rule ask for it again, unless it blocks every source. -/
theorem grammar_ruleWords_block {rule : FirewallRule} (h : Shape rule) (hblock : rule.block = true) :
    ∃ bits, (bits ≤ 32 ∧ rule.sourceMask = prefixMask bits) ∧ rule.destinationMask = prefixMask 0 ∧
      (bits ≠ 0 → Grammar EitherOrder (ruleWords rule bits 0) (.append rule)) ∧
      (bits = 0 → ruleWords rule bits 0 = [bytesOf "block", bytesOf "from", bytesOf "any"]) := by
  cases h with
  | ordinary => cases hblock
  | @block source mask h =>
    obtain ⟨bits, hbits, hmask, hsource⟩ := h
    refine ⟨bits, ⟨hbits, hmask⟩, (by decide : (0 : UInt32) = prefixMask 0), fun hnonzero ↦ ?_, fun hzero ↦ ?_⟩
    · have hgrammar : Grammar EitherOrder _ _ := .block (cidrText_printed source hbits)
      rw [← hmask, hsource] at hgrammar
      change Grammar EitherOrder [bytesOf "block", bytesOf "from", operandText source bits] _
      rw [operandText, if_neg hnonzero]
      exact hgrammar
    · change [bytesOf "block", bytesOf "from", operandText source bits] = _
      rw [operandText, if_pos hzero]

/-! ## Tables built by commands -/

/-- The tables that commands alone lead to. -/
inductive Built : Firewall → Prop
  | reset : Built fwReset
  | command {before after : Firewall} {host : Host} {stack : ℕ → Fin 4 → UInt8} {s : CString} {report : Report}
      (h : Built before) (hcommand : fwCommand host stack before s.buffer = .ok (report, after)) : Built after

theorem Firewall.All.appended {before : Firewall} {predicate : FirewallRule → Prop} (h : before.All predicate)
    {rule : FirewallRule} (hrule : predicate rule) (hroom : before.count < fwRules) :
    (before.appended rule).All predicate := by
  refine ⟨hroom, fun i hi ↦ ?_⟩
  change predicate (Function.update before.rules before.count rule i)
  by_cases hlast : i = before.count
  · rw [hlast, Function.update_self]
    exact hrule
  · rw [Function.update_of_ne hlast]
    exact h.2 i (Nat.lt_of_le_of_ne (Nat.le_of_lt_succ hi) hlast)

/-- An edit keeps what is known of the rules, if it is known of the rules that are asked for. -/
theorem Firewall.All.answer {before : Firewall} (h : before.All Asked) (ready : Bool) {request : Request}
    (hasked : ∃ words, Grammar EitherOrder words request) : (request.answer ready before).2.All Asked := by
  cases request with
  | help => exact h
  | enable =>
    cases ready with
    | false => exact h
    | true => exact ⟨h.1, h.2⟩
  | disable => exact ⟨h.1, h.2⟩
  | status => exact h
  | stats => exact h
  | bpf => exact h
  | doctor => exact h
  | reset => exact all_fwReset
  | delete number =>
    rw [Request.answer]
    split
    · exact h.fwDelete number
    · exact h
  | setDefault direction allow => exact ⟨h.1, h.2⟩
  | append rule =>
    rw [Request.answer]
    by_cases hroom : before.count < fwRules
    · rw [if_pos hroom]
      exact h.appended hasked hroom
    · rw [if_neg hroom]
      exact h

/-- Every rule of such a table has been asked for. -/
theorem Built.all {fw : Firewall} (h : Built fw) : fw.All Asked := by
  induction h with
  | reset => exact all_fwReset
  | @command before after host stack s report h hcommand ih =>
    rw [fwCommand_eq] at hcommand
    cases hrequest : requestOf (tokens isBlank s.bytes) with
    | none =>
      rw [hrequest] at hcommand
      obtain ⟨-, rfl⟩ := Prod.mk.inj (Except.ok.inj hcommand)
      exact ih
    | some request =>
      rw [hrequest] at hcommand
      have hafter : (request.answer host.ready before).2 = after := congrArg Prod.snd (Except.ok.inj hcommand)
      have hasked : ∃ words, Grammar EitherOrder words request :=
        ⟨_, (requestOf_eq_some (tokens_nonzero s)).mp hrequest⟩
      exact hafter ▸ ih.answer host.ready hasked

/-! ## The listing -/

/-- What stands above the lines for the rules. -/
def statusHeading (fw : Firewall) : List UInt8 :=
  bytesOf "Native JordyOS firewall: " ++ bytesOf (if fw.enabled then "enabled\n" else "disabled\n") ++
    bytesOf "Backend: eBPF interpreter; upstream ebpfw XDP + stateless policy.\n" ++
    bytesOf "Defaults: incoming " ++ bytesOf (if fw.defaults 0 then "allow" else "deny") ++
    bytesOf ", outgoing " ++ bytesOf (if fw.defaults fwOut then "allow\n" else "deny\n") ++
    bytesOf "Rules: " ++ decimalText (UInt32.ofNat fw.count).toNat ++
    bytesOf "/32 (blocks first; ordinary first match)\n"

theorem fwStatusRules_eq {fw : Firewall} {line : ℕ → List UInt8} (left : ℕ) {i : ℕ}
    (hline : ∀ j, i ≤ j → j < i + left → fwStatusRule stack fw j = .ok (line j)) :
    fwStatusRules stack fw left i = .ok ((List.range' i left).flatMap line) := by
  induction left generalizing i with
  | zero => rfl
  | succ left ih =>
    rw [fwStatusRules, hline i le_rfl (by omega), ok_bind, ih fun j hj hlt ↦ hline j (by omega) (by omega),
      ok_bind, List.range'_succ, List.flatMap_cons]

/-- A rule that has been asked for is printed. -/
theorem Built.line {fw : Firewall} (h : Built fw) (stack : Fin 11 → UInt8) {i : ℕ} (hi : i < fw.count) :
    ∃ line, fwStatusRule stack fw i = .ok line := by
  have hshape := (h.all.2 i hi).shape
  cases hblock : (fw.rules i).block with
  | false =>
    obtain ⟨_, _, hsource, hdestination, -⟩ := grammar_ruleWords_ordinary hshape hblock
    obtain ⟨_, _, hline⟩ := fwStatusRule_eq stack fw hsource hdestination
    exact ⟨_, hline⟩
  | true =>
    obtain ⟨_, hsource, hdestination, -⟩ := grammar_ruleWords_block hshape hblock
    obtain ⟨_, _, hline⟩ := fwStatusRule_eq stack fw hsource ⟨Nat.zero_le 32, hdestination⟩
    exact ⟨_, hline⟩

/-- `fw_status` prints the line of every rule, in the order of the table. -/
theorem fwStatus_lines {fw : Firewall} (h : Built fw) (stack : Fin 11 → UInt8) :
    ∃ line : ℕ → List UInt8, (∀ i < fw.count, fwStatusRule stack fw i = .ok (line i)) ∧
      fwStatus stack fw = .ok (statusHeading fw ++ (List.range fw.count).flatMap line) := by
  choose! line hline using fun i ↦ h.line stack (i := i)
  refine ⟨line, hline, ?_⟩
  have hrules := fwStatusRules_eq (i := 0) fw.count fun j _ hj ↦ hline j (by omega)
  rw [fwStatus, printNumber_eq, ok_bind, hrules, ok_bind, ← List.range_eq_range', statusHeading]

/-! ## Entered again -/

/-- The line of rule `i`, entered as a command, appends the rule to another table. -/
def Reenters (printed : Fin 11 → UInt8) (fw : Firewall) (i : ℕ) (host : Host) (stack : ℕ → Fin 4 → UInt8)
    (target : Firewall) : Prop :=
  ∃ line report after rule, fwStatusRule printed fw i = .ok line ∧
    fwCommand host stack target (entered line ++ [0]) = .ok (report, after) ∧
    after.table = target.table ++ [rule] ∧ rule.fresh = (fw.rules i).fresh

variable {fw target : Firewall} {i : ℕ}

/-- What becomes of the entered line depends on the words of the rule. -/
theorem enteredLine (printed : Fin 11 → UInt8) (host : Host) (stack : ℕ → Fin 4 → UInt8) (target : Firewall)
    {sourceBits destinationBits : ℕ}
    (hsource : sourceBits ≤ 32 ∧ (fw.rules i).sourceMask = prefixMask sourceBits)
    (hdestination : destinationBits ≤ 32 ∧ (fw.rules i).destinationMask = prefixMask destinationBits) :
    ∃ line, fwStatusRule printed fw i = .ok line ∧ fwCommand host stack target (entered line ++ [0]) =
      .ok (answerOf host.ready target (requestOf (ruleWords (fw.rules i) sourceBits destinationBits))) := by
  obtain ⟨number, hits, hline⟩ := fwStatusRule_eq printed fw hsource hdestination
  have hsolid := solid_ruleWords (fw.rules i) sourceBits destinationBits
  have hnonempty : ruleWords (fw.rules i) sourceBits destinationBits ≠ [] := by
    unfold ruleWords
    split <;> exact List.cons_ne_nil _ _
  have hcommand := fwCommand_eq target stack host (enteredWords _ hsolid)
  have htokens : tokens isBlank (enteredWords _ hsolid).bytes =
      ruleWords (fw.rules i) sourceBits destinationBits := tokens_spaced hsolid
  rw [htokens] at hcommand
  refine ⟨_, hline, ?_⟩
  rw [entered_line number hits hnonempty]
  exact hcommand

theorem reenters_of_grammar (printed : Fin 11 → UInt8) (host : Host) (stack : ℕ → Fin 4 → UInt8)
    (hroom : target.count < fwRules) {sourceBits destinationBits : ℕ}
    (hsource : sourceBits ≤ 32 ∧ (fw.rules i).sourceMask = prefixMask sourceBits)
    (hdestination : destinationBits ≤ 32 ∧ (fw.rules i).destinationMask = prefixMask destinationBits)
    (hgrammar : Grammar EitherOrder (ruleWords (fw.rules i) sourceBits destinationBits) (.append (fw.rules i))) :
    Reenters printed fw i host stack target := by
  obtain ⟨line, hline, hcommand⟩ := enteredLine printed host stack target hsource hdestination
  have hwords : ∀ word ∈ ruleWords (fw.rules i) sourceBits destinationBits, ∀ c ∈ word, c ≠ 0 :=
    fun word hword c hc ↦ ((solid_ruleWords _ _ _ word hword).plain c hc).1
  rw [(requestOf_eq_some hwords).mpr hgrammar, answerOf, Request.answer, if_pos hroom] at hcommand
  exact ⟨line, _, _, fw.rules i, hline, hcommand, table_appended _, rfl⟩

theorem not_reenters (printed : Fin 11 → UInt8) (host : Host) (stack : ℕ → Fin 4 → UInt8)
    (target : Firewall) {sourceBits destinationBits : ℕ}
    (hsource : sourceBits ≤ 32 ∧ (fw.rules i).sourceMask = prefixMask sourceBits)
    (hdestination : destinationBits ≤ 32 ∧ (fw.rules i).destinationMask = prefixMask destinationBits)
    (hnone : requestOf (ruleWords (fw.rules i) sourceBits destinationBits) = none) :
    ¬ Reenters printed fw i host stack target := by
  obtain ⟨line, hline, hcommand⟩ := enteredLine printed host stack target hsource hdestination
  rw [hnone] at hcommand
  rintro ⟨line', report, after, rule, hline', hcommand', htable, -⟩
  obtain rfl := Except.ok.inj (hline.symm.trans hline')
  obtain ⟨-, rfl⟩ := Prod.mk.inj (Except.ok.inj (hcommand.symm.trans hcommand'))
  have hlength := congrArg List.length htable
  rw [List.length_append, List.length_singleton] at hlength
  exact absurd hlength (Nat.ne_of_lt (Nat.lt_succ_self _))

/-- The line of a rule enters it again exactly when it is no block of every source. -/
theorem reenters_iff (h : Built fw) (hi : i < fw.count) (printed : Fin 11 → UInt8) (host : Host)
    (stack : ℕ → Fin 4 → UInt8) (hroom : target.count < fwRules) :
    Reenters printed fw i host stack target ↔ ¬ ((fw.rules i).block = true ∧ (fw.rules i).sourceMask = 0) := by
  have hshape := (h.all.2 i hi).shape
  cases hblock : (fw.rules i).block with
  | false =>
    obtain ⟨sourceBits, destinationBits, hsource, hdestination, hgrammar⟩ :=
      grammar_ruleWords_ordinary hshape hblock
    refine iff_of_true ?_ nofun
    exact reenters_of_grammar printed host stack hroom hsource hdestination hgrammar
  | true =>
    obtain ⟨bits, hsource, hdestination, hread, hany⟩ := grammar_ruleWords_block hshape hblock
    have hdestination : 0 ≤ 32 ∧ (fw.rules i).destinationMask = prefixMask 0 := ⟨Nat.zero_le 32, hdestination⟩
    have hmask : (fw.rules i).sourceMask = 0 ↔ bits = 0 := by
      rw [hsource.2]
      exact prefixMask_eq_zero hsource.1
    rw [hmask]
    by_cases hzero : bits = 0
    · refine iff_of_false ?_ (not_not.mpr ⟨rfl, hzero⟩)
      refine not_reenters printed host stack target hsource hdestination ?_
      rw [hany hzero]
      decide
    · refine iff_of_true ?_ fun h ↦ hzero h.2
      exact reenters_of_grammar printed host stack hroom hsource hdestination (hread hzero)

def quietHost : Host := ⟨true, 0, 0, "", {}, false⟩

/-- The table with the one rule that a command asks for. -/
theorem built_command (s : CString) (rule : FirewallRule)
    (h : requestOf (tokens isBlank s.bytes) = some (.append rule)) : Built (fwReset.appended rule) := by
  have hcommand := fwCommand_eq fwReset (fun _ _ ↦ 0) quietHost s
  rw [h] at hcommand
  exact .command .reset hcommand

def resolverRule : FirewallRule :=
  { direction := 1, protocol := netUdp, port := 53, destination := 0x0a000000, destinationMask := 0xff000000 }

theorem built_resolverRule : Built (fwReset.appended resolverRule) :=
  built_command ⟨bytesOf "deny out 53/udp to 10.1.2.3/8", by decide⟩ _ (by decide)

theorem reenters_resolverRule :
    Reenters (fun _ ↦ 0) (fwReset.appended resolverRule) 0 quietHost (fun _ _ ↦ 0) fwReset ↔
      ¬ (((fwReset.appended resolverRule).rules 0).block = true ∧
        ((fwReset.appended resolverRule).rules 0).sourceMask = 0) :=
  reenters_iff built_resolverRule (by decide) _ _ _ (by decide)

/-- A block of every source is printed as a command that is rejected. -/
theorem not_reenters_blockEverything : Built (fwReset.appended (blockRule 0 0)) ∧
    ¬ Reenters (fun _ ↦ 0) (fwReset.appended (blockRule 0 0)) 0 quietHost (fun _ _ ↦ 0) fwReset := by
  refine ⟨built_command ⟨bytesOf "block from 0.0.0.0/0", by decide⟩ _ (by decide), ?_⟩
  have hmask : (0 : UInt32) = prefixMask 0 := by decide
  exact not_reenters _ _ _ _ ⟨Nat.zero_le 32, hmask⟩ ⟨Nat.zero_le 32, hmask⟩ (by decide)

end JordyOS.Policy
