import JordyOS.Policy.BoundedList
import JordyOS.Policy.Parsing

/-!
# Commands follow the grammar

What `fw_command` does with the words of its argument is what the grammar says: one request, answered whole,
or a rejection that leaves the firewall alone.
-/

namespace JordyOS.Policy

open Machine Net

/-! ## Answers -/

/-- The rule joins the table. -/
def Firewall.appended (fw : Firewall) (rule : FirewallRule) : Firewall :=
  { fw with rules := Function.update fw.rules fw.count rule, count := fw.count + 1 }

/-- What is reported and what becomes of the firewall. -/
def Request.answer (ready : Bool) (fw : Firewall) : Request → Report × Firewall
  | .help => (.help, fw)
  | .enable => if ready then (.enabled, { fw with enabled := true }) else (.notReady, fw)
  | .disable => (.disabled, { fw with enabled := false })
  | .status => (.status, fw)
  | .stats => (.stats, fw)
  | .bpf => (.bpf, fw)
  | .doctor => (.doctor, fw)
  | .reset => (.reset, fwReset)
  | .delete number =>
    if 1 ≤ number ∧ number ≤ fw.count then (.deleted, (fwDelete fw number).2) else (.invalid, fw)
  | .setDefault direction allow =>
    (.defaultUpdated, { fw with defaults := Function.update fw.defaults direction allow })
  | .append rule =>
    if fw.count < fwRules then
      (if rule.block then .blockAdded (fw.count + 1) else .added (fw.count + 1), fw.appended rule)
    else (.full, fw)

/-- What is no request is rejected. -/
def answerOf (ready : Bool) (fw : Firewall) : Option Request → Report × Firewall
  | none => (.invalid, fw)
  | some request => request.answer ready fw

variable {a : Words} {found : List Word} {word : Word} {i : ℕ} {text : List UInt8} (fw : Firewall)

theorem fwAdd_eq {rule : FirewallRule} (hlegal : rule.Legal) (hhits : rule.hits = 0) :
    fwAdd fw rule = if fw.count < fwRules then (true, fw.appended rule) else (false, fw) := by
  by_cases hroom : fw.count < fwRules
  · have hadd := fwAdd_of_legal hroom hlegal
    have hsame : { rule with hits := 0 } = rule := by rw [← hhits]
    unfold fwAdd at hadd ⊢
    split at hadd
    · cases hadd.1
    · rename_i hpasses
      rw [if_neg hpasses, if_pos hroom, hsame]
      rfl
  · rw [if_neg hroom]
    exact fwAdd_of_not_legal fun h ↦ hroom h.1

theorem legal_blockRule (source mask : UInt32) : (blockRule source mask).Legal :=
  ⟨Nat.zero_le _, .inl rfl, fun hport ↦ absurd rfl hport⟩

theorem legal_ordinaryRule (allow : Bool) {direction protocol : UInt8} {port : UInt16} {name : Word}
    (hdirection : direction.toNat ≤ fwOut) (hservice : ServiceText name protocol port) (e : Endpoints) :
    (ordinaryRule allow direction protocol port e).Legal := by
  refine ⟨hdirection, ?_, fun hport ↦ ?_⟩
  · change protocol = 0 ∨ protocol = netIcmp ∨ protocol = netTcp ∨ protocol = netUdp
    cases hservice <;> decide
  · change protocol = netTcp ∨ protocol = netUdp
    cases hservice with
    | all => exact absurd rfl hport
    | icmp => exact absurd rfl hport
    | tcp => exact .inl rfl
    | udp => exact .inr rfl
    | tcpPort => exact .inl rfl
    | udpPort => exact .inr rfl

/-! ## Forms with operands -/

variable (stack : ℕ → Fin 4 → UInt8) (ready : Bool)

/-- The rest of a rule in the grammar. -/
def ruleRest (allow : Bool) (direction : UInt8) (rest : List Word) : Option Request := do
  let name ← rest.head?
  let (protocol, port) ← serviceOf name
  let endpoints ← clausesOf rest.tail false false {}
  some (.append (ordinaryRule allow direction protocol port endpoints))

theorem ruleFrom_eq (h : a.Found found) (hi : i ≤ found.length) {direction : UInt8}
    (hdirection : direction.toNat ≤ fwOut) (allow : Bool) :
    ruleFrom stack fw a i { allow := allow, direction := direction } =
      .ok (answerOf ready fw (ruleRest allow direction (found.drop i))) := by
  have hn := h.n
  unfold ruleFrom
  by_cases hend : found.length = i
  · rw [if_pos (by omega), List.drop_of_length_le (by omega)]
    rfl
  rw [if_neg (by omega), List.drop_eq_getElem_cons (by omega)]
  obtain ⟨pointer, hpointer, hname, hlayout⟩ :=
    h.layout.split (List.getElem?_eq_getElem (by omega : i < found.length))
  obtain ⟨text, hservice, hkept⟩ := service_eq hname { allow := allow, direction := direction } ⟨rfl, rfl⟩
  rw [hpointer]
  dsimp only
  rw [hservice, ok_bind]
  unfold ruleRest
  rw [List.head?_cons, Option.bind_eq_bind, Option.bind_some, List.tail_cons]
  cases hfound : serviceOf found[i] with
  | none => rfl
  | some service =>
    obtain ⟨protocol, port⟩ := service
    have hlater := hkept _ _ hlayout
    have hholds : ∀ j, i + 1 ≤ j → ∀ word, found[j]? = some word →
        Words.Holds { a with text := text } j word := by
      intro j hj word hword
      have hdropped : (found.drop (i + 1))[j - (i + 1)]? = some word := by
        rw [List.getElem?_drop, Nat.add_sub_cancel' hj, hword]
      obtain ⟨pointer, hpointer, hword, -⟩ := hlater.split hdropped
      rw [List.getElem?_drop, Nat.add_sub_cancel' hj] at hpointer
      exact ⟨pointer, hpointer, hword⟩
    have hloop := clauseLoop_eq stack { a with text := text } hn (by omega : i + 1 ≤ found.length) hholds
      (a.n.toNat + 1) (by omega) false false
      (withService { allow := allow, direction := direction } (protocol, port))
    have hempty : (withService { allow := allow, direction := direction } (protocol, port)).endpoints = {} := rfl
    rw [hempty] at hloop
    rw [Option.map_some]
    dsimp only
    rw [hloop, ok_bind]
    cases clausesOf (found.drop (i + 1)) false false {} with
    | none => rfl
    | some e =>
      have hlegal := legal_ordinaryRule allow hdirection (serviceOf_eq_some.mp hfound) e
      change _ = Except.ok (Request.answer ready fw (.append (ordinaryRule allow direction protocol port e)))
      rw [Request.answer]
      change (if (fwAdd fw (ordinaryRule allow direction protocol port e)).1 then
        (.ok (.added (fwAdd fw (ordinaryRule allow direction protocol port e)).2.count,
          (fwAdd fw (ordinaryRule allow direction protocol port e)).2) : Scan (Report × Firewall))
        else .ok (.full, (fwAdd fw (ordinaryRule allow direction protocol port e)).2)) = _
      rw [fwAdd_eq fw hlegal rfl]
      by_cases hroom : fw.count < fwRules
      · rw [if_pos hroom, if_pos hroom]
        rfl
      · rw [if_neg hroom, if_neg hroom]
        rfl

theorem ruleOf_cons {first : Word} {allow : Bool} (h : actionOf first = some allow) (rest : List Word) :
    ruleOf (first :: rest) = ruleRest allow (directionOf rest).1 (directionOf rest).2 := by
  rw [ruleOf, h]
  rfl

theorem ruleCommand_eq {first second : Word} {rest : List Word} (h : a.Found (first :: second :: rest))
    (allow : Bool) : ruleCommand stack fw a allow =
      .ok (answerOf ready fw
        (ruleRest allow (directionOf (second :: rest)).1 (directionOf (second :: rest)).2)) := by
  have hsecond : a.Holds 1 second := h.holds rfl
  rw [ruleCommand, hsecond.is (by decide), hsecond.is (by decide), directionOf, ok_bind, ok_bind]
  by_cases hin : second = bytesOf "in"
  · rw [if_pos (decide_eq_true hin), if_pos hin]
    exact ruleFrom_eq fw stack ready h (Nat.le_add_left 2 rest.length) (by decide) allow
  rw [if_neg (by simpa using hin), if_neg hin]
  by_cases hout : second = bytesOf "out"
  · rw [if_pos (decide_eq_true hout), if_pos hout]
    exact ruleFrom_eq fw stack ready h (Nat.le_add_left 2 rest.length) (by decide) allow
  · rw [if_neg (by simpa using hout), if_neg hout]
    exact ruleFrom_eq fw stack ready h (Nat.le_add_left 1 _) (by decide) allow

theorem ordinaryCommand_eq (h : a.Found found) :
    ordinaryCommand stack fw a = .ok (answerOf ready fw (ruleOf found)) := by
  have hn := h.n
  match found with
  | [] =>
    rw [ordinaryCommand, hn]
    rfl
  | [first] =>
    have hnone : ruleOf [first] = none := by
      cases haction : actionOf first with
      | none =>
        rw [ruleOf, haction]
        rfl
      | some allow => exact ruleOf_cons haction []
    rw [ordinaryCommand, hn, hnone]
    rfl
  | first :: second :: rest =>
    have hfirst : a.Holds 0 first := h.holds rfl
    obtain ⟨behind, hget, hnonzero⟩ := hfirst.get
    have hmany : 2 ≤ a.n := by
      rw [hn, List.length_cons, List.length_cons]
      omega
    rw [ordinaryCommand, if_pos hmany, hget, ok_bind, action_eq hnonzero, ok_bind]
    cases haction : actionOf first with
    | none =>
      rw [ruleOf, haction]
      rfl
    | some allow =>
      rw [ruleOf_cons haction]
      exact ruleCommand_eq fw stack ready h allow

theorem blockCommand_eq (h : a.Holds 2 word) :
    blockCommand stack fw a = .ok (answerOf ready fw (blockOf word)) := by
  obtain ⟨behind, hget, hnonzero⟩ := h.get
  rw [blockCommand, hget, ok_bind, netCidr_eq_cidrOf hnonzero, ok_bind, blockOf]
  cases cidrOf word with
  | none => rfl
  | some cidr =>
    obtain ⟨source, mask⟩ := cidr
    change _ = Except.ok (Request.answer ready fw (.append (blockRule source mask)))
    rw [Request.answer]
    change (if (fwAdd fw (blockRule source mask)).1 then
      (.ok (.blockAdded (fwAdd fw (blockRule source mask)).2.count, (fwAdd fw (blockRule source mask)).2) :
        Scan (Report × Firewall))
      else .ok (.full, (fwAdd fw (blockRule source mask)).2)) = _
    rw [fwAdd_eq fw (legal_blockRule source mask) rfl]
    by_cases hroom : fw.count < fwRules
    · rw [if_pos hroom, if_pos hroom]
      rfl
    · rw [if_neg hroom, if_neg hroom]
      rfl

theorem defaultCommand_eq {second : Word} {allow : Bool} (h : a.Holds 2 word)
    (haction : actionOf second = some allow) :
    defaultCommand fw a allow = .ok (answerOf ready fw (defaultOf second word)) := by
  rw [defaultCommand, h.is (by decide), h.is (by decide), ok_bind, ok_bind, defaultOf, haction]
  dsimp only
  by_cases hin : word = bytesOf "incoming"
  · rw [if_pos (decide_eq_true hin), if_pos hin]
    rfl
  rw [if_neg (by simpa using hin), if_neg hin]
  by_cases hout : word = bytesOf "outgoing"
  · rw [if_pos (decide_eq_true hout), if_pos hout]
    rfl
  · rw [if_neg (by simpa using hout), if_neg hout]
    rfl

theorem policyCommand_of_length (h : a.Found found) (hlength : found.length ≠ 3) :
    policyCommand stack fw a = .ok (answerOf ready fw (ruleOf found)) := by
  have hn : (a.n == 3) = false := by
    rw [beq_eq_false_iff_ne, h.n]
    omega
  rw [policyCommand, hn]
  exact ordinaryCommand_eq fw stack ready h

theorem policyCommand_three {first second third : Word} (h : a.Found [first, second, third]) :
    policyCommand stack fw a = .ok (answerOf ready fw (operandForm [first, second, third])) := by
  have hfirst : a.Holds 0 first := h.holds rfl
  have hsecond : a.Holds 1 second := h.holds rfl
  have hthird : a.Holds 2 third := h.holds rfl
  have hn : a.n = 3 := h.n
  rw [policyCommand, hn, hfirst.is (by decide), hfirst.is (by decide), hsecond.is (by decide)]
  change _ = Except.ok (answerOf ready fw (if first = bytesOf "block" ∧ second = bytesOf "from" then blockOf third
    else if first = bytesOf "default" then defaultOf second third else ruleOf [first, second, third]))
  change (andThen (decide (first = bytesOf "block")) (.ok (decide (second = bytesOf "from"))) >>= _) = _
  have hboth : andThen (decide (first = bytesOf "block")) (.ok (decide (second = bytesOf "from"))) =
      .ok (decide (first = bytesOf "block" ∧ second = bytesOf "from")) := by
    by_cases hblock : first = bytesOf "block" <;> simp [andThen, hblock]
  rw [hboth, ok_bind]
  by_cases hblock : first = bytesOf "block" ∧ second = bytesOf "from"
  · rw [if_pos hblock, if_pos (decide_eq_true hblock)]
    exact blockCommand_eq fw stack ready hthird
  rw [if_neg hblock, if_neg (by simpa using hblock)]
  change ((if decide (first = bytesOf "default") = true then a.get 1 >>= action else .ok none) >>= _) = _
  by_cases hdefault : first = bytesOf "default"
  · obtain ⟨behind, hget, hnonzero⟩ := hsecond.get
    rw [if_pos hdefault, if_pos (decide_eq_true hdefault), hget, ok_bind, action_eq hnonzero, ok_bind]
    cases haction : actionOf second with
    | none =>
      have hrule : ruleOf [first, second, third] = none := by
        rw [ruleOf, hdefault]
        rfl
      have hnone : defaultOf second third = none := by
        rw [defaultOf, haction]
      rw [hnone, ← hrule]
      exact ordinaryCommand_eq fw stack ready h
    | some allow => exact defaultCommand_eq fw ready hthird haction
  · rw [if_neg hdefault, if_neg (by simpa using hdefault)]
    exact ordinaryCommand_eq fw stack ready h

theorem policyCommand_eq (h : a.Found found) (hdelete : ∀ second, found ≠ [bytesOf "delete", second]) :
    policyCommand stack fw a = .ok (answerOf ready fw (operandForm found)) := by
  match found with
  | [first, second, third] => exact policyCommand_three fw stack ready h
  | [first, second] =>
    have hfirst : first ≠ bytesOf "delete" := fun hfirst ↦ hdelete second (by rw [hfirst])
    have hform : operandForm [first, second] = ruleOf [first, second] := if_neg hfirst
    rw [hform]
    exact policyCommand_of_length fw stack ready h (by simp)
  | [] => exact policyCommand_of_length fw stack ready h (by simp)
  | [_] => exact policyCommand_of_length fw stack ready h (by simp)
  | _ :: _ :: _ :: _ :: _ => exact policyCommand_of_length fw stack ready h (by simp)

theorem editCommand_delete {second : Word} (h : a.Found [bytesOf "delete", second]) :
    editCommand stack fw a = .ok (answerOf ready fw (operandForm [bytesOf "delete", second])) := by
  have hfirst : a.Holds 0 (bytesOf "delete") := h.holds rfl
  have hsecond : a.Holds 1 second := h.holds rfl
  obtain ⟨behind, hget, hnonzero⟩ := hsecond.get
  have hn : a.n = 2 := h.n
  have hform : operandForm [bytesOf "delete", second] = (numberOf second fwRules).map .delete := rfl
  have hlater : policyCommand stack fw a = .ok (.invalid, fw) :=
    policyCommand_of_length fw stack ready h (by simp)
  have hmaximum : (32 : UInt32).toNat = fwRules := rfl
  rw [editCommand, hn, hfirst.is (by decide), hform]
  change (a.get 1 >>= fun text ↦ attempt (netNumber text 32)) >>= _ = _
  rw [hget, ok_bind, attempt_netNumber hnonzero, ok_bind, hmaximum]
  cases hnumber : numberOf second fwRules with
  | none => exact hlater
  | some n =>
    obtain ⟨htext, rfl⟩ := numberOf_eq_some.mp hnumber
    have hsmall : decimalValue second ≤ 32 := htext.small
    have hvalue : (UInt32.ofNat (decimalValue second)).toNat = decimalValue second :=
      UInt32.toNat_ofNat_of_lt' (by rw [UInt32.size]; omega)
    dsimp only [Option.map_some]
    change _ = Except.ok (Request.answer ready fw (.delete (decimalValue second)))
    rw [hvalue, Request.answer]
    by_cases hpresent : 1 ≤ decimalValue second ∧ decimalValue second ≤ fw.count
    · have hdone : fwDelete fw (decimalValue second) = (true, (fwDelete fw (decimalValue second)).2) :=
        Prod.ext (fwDelete_of_present hpresent).1 rfl
      rw [if_pos hpresent, hdone]
      rfl
    · rw [if_neg hpresent, fwDelete_of_absent hpresent]
      exact hlater

theorem editCommand_eq (h : a.Found found) :
    editCommand stack fw a = .ok (answerOf ready fw (operandForm found)) := by
  by_cases hdelete : ∃ second, found = [bytesOf "delete", second]
  · obtain ⟨second, rfl⟩ := hdelete
    exact editCommand_delete fw stack ready h
  have hother : ∀ second, found ≠ [bytesOf "delete", second] := fun second heq ↦ hdelete ⟨second, heq⟩
  have hcondition : andThen (a.n == 2) (a.is 0 "delete") = .ok false := by
    by_cases htwo : found.length = 2
    · obtain ⟨first, second, rfl⟩ := List.length_eq_two.mp htwo
      have hfirst : a.Holds 0 first := h.holds rfl
      have hn : a.n = 2 := h.n
      rw [hn, hfirst.is (by decide), decide_eq_false fun heq ↦ hother second (by rw [heq])]
      rfl
    · have hn : (a.n == 2) = false := by
        rw [beq_eq_false_iff_ne, h.n]
        omega
      rw [hn]
      rfl
  rw [editCommand, hcondition]
  exact policyCommand_eq fw stack ready h hother

/-! ## Whole commands -/

variable (host : Host)

/-- More words than there is room for are no command. -/
theorem fwCommand_of_many (harguments : words text 10 = .ok a) (hn : a.n = -1) :
    fwCommand host stack fw text = .ok (.invalid, fw) := by
  have honly (literal : String) : a.only literal = .ok false := Words.only_of_ne (by omega) literal
  rw [fwCommand, harguments]
  simp [honly, hn, andThen, editCommand, policyCommand, ordinaryCommand]

theorem status_eq (h : a.Found found) :
    (do
      let numbered ← andThen (a.n == 2) (a.is 1 "numbered")
      andThen (a.n == 1 || numbered) (a.is 0 "status")) =
    .ok (decide (found = [bytesOf "status"] ∨ found = [bytesOf "status", bytesOf "numbered"])) := by
  have hn := h.n
  match found with
  | [] =>
    rw [hn]
    rfl
  | [first] =>
    have hfirst : a.Holds 0 first := h.holds rfl
    rw [hn, hfirst.is (by decide)]
    simp [andThen]
  | [first, second] =>
    have hfirst : a.Holds 0 first := h.holds rfl
    have hsecond : a.Holds 1 second := h.holds rfl
    rw [hn, hfirst.is (by decide), hsecond.is (by decide)]
    by_cases hnumbered : second = bytesOf "numbered" <;> simp [andThen, hnumbered]
  | first :: second :: third :: rest =>
    have hone : (a.n == 1) = false := by
      rw [beq_eq_false_iff_ne, hn, List.length_cons, List.length_cons, List.length_cons]
      omega
    have htwo : (a.n == 2) = false := by
      rw [beq_eq_false_iff_ne, hn, List.length_cons, List.length_cons, List.length_cons]
      omega
    rw [hone, htwo]
    simp [andThen]

/-- What a command does depends on its words only. -/
theorem fwCommand_of_found (harguments : words text 10 = .ok a) (h : a.Found found) :
    fwCommand host stack fw text = .ok (answerOf host.ready fw (requestOf found)) := by
  have hempty : a.n = 0 ↔ found = [] := by
    rw [h.n, Int.natCast_eq_zero, List.length_eq_zero_iff]
  rw [fwCommand, harguments, ok_bind, h.only (by decide), h.only (by decide), h.only (by decide),
    h.only (by decide), h.only (by decide), h.only (by decide), h.only (by decide), ok_bind]
  by_cases hhelp : found = [] ∨ found = [bytesOf "help"]
  · rw [if_pos (hhelp.imp hempty.mpr decide_eq_true)]
    rcases hhelp with rfl | rfl <;> rfl
  rw [if_neg (by simpa [hempty] using hhelp), ok_bind]
  by_cases henable : found = [bytesOf "enable"]
  · rw [if_pos (decide_eq_true henable), henable]
    cases host.ready <;> rfl
  rw [if_neg (by simpa using henable), ok_bind]
  by_cases hdisable : found = [bytesOf "disable"]
  · rw [if_pos (decide_eq_true hdisable), hdisable]
    rfl
  rw [if_neg (by simpa using hdisable), ← bind_assoc, status_eq h, ok_bind]
  by_cases hstatus : found = [bytesOf "status"] ∨ found = [bytesOf "status", bytesOf "numbered"]
  · rw [if_pos (decide_eq_true hstatus)]
    rcases hstatus with rfl | rfl <;> rfl
  rw [if_neg (by simpa using hstatus), ok_bind]
  by_cases hstats : found = [bytesOf "stats"]
  · rw [if_pos (decide_eq_true hstats), hstats]
    rfl
  rw [if_neg (by simpa using hstats), ok_bind]
  by_cases hbpf : found = [bytesOf "bpf"]
  · rw [if_pos (decide_eq_true hbpf), hbpf]
    rfl
  rw [if_neg (by simpa using hbpf), ok_bind]
  by_cases hdoctor : found = [bytesOf "doctor"]
  · rw [if_pos (decide_eq_true hdoctor), hdoctor]
    rfl
  rw [if_neg (by simpa using hdoctor), ok_bind]
  by_cases hreset : found = [bytesOf "reset"]
  · rw [if_pos (decide_eq_true hreset), hreset]
    rfl
  rw [if_neg (by simpa using hreset)]
  have hform : requestOf found = operandForm found := by
    have hnone : fixedForms.lookup found = none := by
      rw [List.lookup_eq_none_iff]
      obtain ⟨hnothing, hhelp⟩ := not_or.mp hhelp
      obtain ⟨hstatus, hnumbered⟩ := not_or.mp hstatus
      simp [fixedForms, *]
    rw [requestOf, hnone]
  rw [hform]
  exact editCommand_eq fw stack host.ready h

theorem tokens_nonzero (s : CString) : ∀ word ∈ tokens isBlank s.bytes, ∀ c ∈ word, c ≠ 0 :=
  fun _ hword c hc ↦ s.nonzero c (mem_of_mem_tokens hword hc)

/-- Every command does what its words ask for. -/
theorem fwCommand_eq (s : CString) : fwCommand host stack fw s.buffer =
    .ok (answerOf host.ready fw (requestOf (tokens isBlank s.bytes))) := by
  obtain ⟨a, harguments, hmany, hfew⟩ := words_eq s 10
  by_cases hlength : (tokens isBlank s.bytes).length ≤ 10
  · exact fwCommand_of_found fw stack host harguments (hfew hlength)
  · have hnone : requestOf (tokens isBlank s.bytes) = none := by
      rw [Option.eq_none_iff_forall_ne_some]
      intro request hrequest
      have hle := (grammar_of_requestOf (tokens_nonzero s) hrequest).length_le
      omega
    rw [hnone]
    exact fwCommand_of_many fw stack host harguments (hmany (by omega))

/-! ## Edits -/

/-- One edit of a firewall. -/
inductive Edit (before : Firewall) : Firewall → Prop
  | enable : Edit before { before with enabled := true }
  | disable : Edit before { before with enabled := false }
  | reset : Edit before fwReset
  | setDefault {direction : ℕ} (hdirection : direction ≤ fwOut) (allow : Bool) :
      Edit before { before with defaults := Function.update before.defaults direction allow }
  | delete {after : Firewall} {number : ℕ} (hpresent : 1 ≤ number ∧ number ≤ before.count)
      (htable : after.table = before.table.eraseIdx (number - 1))
      (hsame : { after with rules := before.rules, count := before.count } = before) : Edit before after
  | append {after : Firewall} (rule : FirewallRule) (hroom : before.count < fwRules)
      (htable : after.table = before.table ++ [rule])
      (hsame : { after with rules := before.rules, count := before.count } = before) : Edit before after

/-- The reports of commands that are rejected or only ask. -/
def Report.Passive : Report → Prop
  | .help | .notReady | .status | .stats | .bpf | .doctor | .full | .invalid => True
  | _ => False

variable {fw} {before : Firewall} {ready}

theorem table_appended (rule : FirewallRule) : (before.appended rule).table = before.table ++ [rule] := by
  unfold Firewall.table Firewall.appended
  dsimp only
  rw [List.range_succ, List.map_append, List.map_singleton, Function.update_self]
  congr 1
  refine List.map_congr_left fun i hi ↦ ?_
  rw [Function.update_of_ne (Nat.ne_of_lt (List.mem_range.mp hi))]

theorem fwDelete_same (number : ℕ) :
    { (fwDelete before number).2 with rules := before.rules, count := before.count } = before := by
  unfold fwDelete
  split <;> rfl

/-- Every answer is passive and changes nothing, or is one edit. -/
theorem Request.answer_cases (before : Firewall) (ready : Bool) {request : Request}
    (h : ∃ words, Grammar EitherOrder words request) :
    (request.answer ready before).2 = before ∨
      ¬ (request.answer ready before).1.Passive ∧ Edit before (request.answer ready before).2 := by
  cases request with
  | help => exact .inl rfl
  | enable =>
    cases ready with
    | false => exact .inl rfl
    | true => exact .inr ⟨id, .enable⟩
  | disable => exact .inr ⟨id, .disable⟩
  | status => exact .inl rfl
  | stats => exact .inl rfl
  | bpf => exact .inl rfl
  | doctor => exact .inl rfl
  | reset => exact .inr ⟨id, .reset⟩
  | delete number =>
    rw [Request.answer]
    by_cases hpresent : 1 ≤ number ∧ number ≤ before.count
    · rw [if_pos hpresent]
      exact .inr ⟨id, .delete hpresent (fwDelete_of_present hpresent).2 (fwDelete_same number)⟩
    · rw [if_neg hpresent]
      exact .inl rfl
  | setDefault direction allow =>
    refine .inr ⟨id, .setDefault ?_ allow⟩
    obtain ⟨words, hwords⟩ := h
    generalize hrequest : Request.setDefault direction allow = request at hwords
    cases hwords with
    | fixed hfixed =>
      have hall : ∀ form ∈ fixedForms, ∀ d a, Request.setDefault d a ≠ form.2 := by
        simp [fixedForms]
      exact absurd hrequest (hall _ hfixed direction allow)
    | delete => cases hrequest
    | block => cases hrequest
    | defaultIn =>
      injection hrequest with hdirection
      rw [hdirection]
      exact Nat.zero_le _
    | defaultOut =>
      injection hrequest with hdirection
      rw [hdirection]
    | rule => cases hrequest
  | append rule =>
    rw [Request.answer]
    by_cases hroom : before.count < fwRules
    · rw [if_pos hroom]
      refine .inr ⟨?_, .append rule hroom (table_appended rule) rfl⟩
      cases rule.block <;> exact id
    · rw [if_neg hroom]
      exact .inl rfl

theorem not_passive_of_edit {request : Request} (h : ∃ words, Grammar EitherOrder words request)
    (hpassive : (request.answer ready before).1.Passive) : (request.answer ready before).2 = before := by
  rcases Request.answer_cases before ready h with hsame | ⟨hactive, -⟩
  · exact hsame
  · exact absurd hpassive hactive

/-- A table that has grown by a rule has grown by the rule that was asked for. -/
theorem eq_append_of_answer {request : Request} {rule : FirewallRule}
    (h : (request.answer ready before).2.table = before.table ++ [rule]) : request = .append rule := by
  have hgrown {after : Firewall} (htable : after.table = before.table ++ [rule]) :
      after.count = before.count + 1 := by
    rw [← length_table, htable, List.length_append, length_table, List.length_singleton]
  cases request with
  | append other =>
    rw [Request.answer] at h
    by_cases hroom : before.count < fwRules
    · rw [if_pos hroom] at h
      dsimp only at h
      rw [table_appended] at h
      rw [List.singleton_inj.mp (List.append_cancel_left h)]
    · rw [if_neg hroom] at h
      exact absurd (hgrown h) (Nat.ne_of_lt (Nat.lt_succ_self _))
  | delete number =>
    have hcount := hgrown h
    rw [Request.answer] at hcount
    by_cases hpresent : 1 ≤ number ∧ number ≤ before.count
    · rw [if_pos hpresent] at hcount
      dsimp only at hcount
      have hlength := congrArg List.length (fwDelete_of_present hpresent).2
      rw [length_table, List.length_eraseIdx_of_lt (by rw [length_table]; omega), length_table] at hlength
      omega
    · rw [if_neg hpresent] at hcount
      exact absurd hcount (Nat.ne_of_lt (Nat.lt_succ_self _))
  | reset => exact absurd (hgrown h).symm (Nat.succ_ne_zero _)
  | enable =>
    cases ready with
    | false => exact absurd (hgrown h) (Nat.ne_of_lt (Nat.lt_succ_self _))
    | true => exact absurd (hgrown h) (Nat.ne_of_lt (Nat.lt_succ_self _))
  | help => exact absurd (hgrown h) (Nat.ne_of_lt (Nat.lt_succ_self _))
  | disable => exact absurd (hgrown h) (Nat.ne_of_lt (Nat.lt_succ_self _))
  | status => exact absurd (hgrown h) (Nat.ne_of_lt (Nat.lt_succ_self _))
  | stats => exact absurd (hgrown h) (Nat.ne_of_lt (Nat.lt_succ_self _))
  | bpf => exact absurd (hgrown h) (Nat.ne_of_lt (Nat.lt_succ_self _))
  | doctor => exact absurd (hgrown h) (Nat.ne_of_lt (Nat.lt_succ_self _))
  | setDefault direction allow => exact absurd (hgrown h) (Nat.ne_of_lt (Nat.lt_succ_self _))

/-- Commands are all or nothing: every argument leaves the firewall as it is or makes one edit, and it does
what the grammar, with its clauses in either order, assigns to the words. -/
theorem fwCommand_allOrNothing (host : Host) (stack : ℕ → Fin 4 → UInt8) (before : Firewall) (s : CString) :
    ∃ report after, fwCommand host stack before s.buffer = .ok (report, after) ∧
      (after = before ∨ Edit before after) ∧ (report.Passive → after = before) ∧
      (∀ rule, after.table = before.table ++ [rule] →
        Grammar EitherOrder (tokens isBlank s.bytes) (.append rule)) ∧
      (∀ request, Grammar EitherOrder (tokens isBlank s.bytes) request →
        (report, after) = request.answer host.ready before) ∧
      ((∀ request, ¬ Grammar EitherOrder (tokens isBlank s.bytes) request) →
        report = .invalid ∧ after = before) := by
  have hread (request : Request) : requestOf (tokens isBlank s.bytes) = some request ↔
      Grammar EitherOrder (tokens isBlank s.bytes) request := requestOf_eq_some (tokens_nonzero s)
  have hcommand := fwCommand_eq before stack host s
  cases hrequest : requestOf (tokens isBlank s.bytes) with
  | none =>
    rw [hrequest] at hcommand
    refine ⟨.invalid, before, hcommand, .inl rfl, fun _ ↦ rfl, fun rule htable ↦ ?_, fun request h ↦ ?_,
      fun _ ↦ ⟨rfl, rfl⟩⟩
    · have hlength := congrArg List.length htable
      rw [List.length_append, List.length_singleton] at hlength
      exact absurd hlength (Nat.ne_of_lt (Nat.lt_succ_self _))
    · rw [(hread request).mpr h] at hrequest
      cases hrequest
  | some request =>
    have hgrammar := (hread request).mp hrequest
    rw [hrequest] at hcommand
    refine ⟨_, _, hcommand, ?_, not_passive_of_edit ⟨_, hgrammar⟩, fun rule htable ↦ ?_, fun other h ↦ ?_,
      fun hnone ↦ absurd hgrammar (hnone request)⟩
    · exact (Request.answer_cases before host.ready ⟨_, hgrammar⟩).imp_right And.right
    · rw [← eq_append_of_answer htable]
      exact hgrammar
    · obtain rfl : request = other := Option.some.inj (hrequest.symm.trans ((hread other).mpr h))
      rfl

/-- In the documented clauses nothing follows a destination. -/
theorem InOrder.length_of_to {clauses : List Word} {e : Endpoints} (h : InOrder clauses e)
    (hhead : clauses.head? = some (bytesOf "to")) : clauses.length = 2 := by
  cases h with
  | omitted => cases hhead
  | source => exact absurd hhead (by simp [show bytesOf "from" ≠ bytesOf "to" by decide])
  | destination => rfl
  | both => exact absurd hhead (by simp [show bytesOf "from" ≠ bytesOf "to" by decide])

def swappedClauses : CString := ⟨bytesOf "allow udp to any from any", by decide⟩

/-- The documented order of the clauses is not enforced. -/
theorem fwCommand_swappedClauses :
    (∀ request, ¬ Grammar InOrder (tokens isBlank swappedClauses.bytes) request) ∧
    fwCommand ⟨true, 0, 0, "", {}, false⟩ (fun _ _ ↦ 0) fwReset swappedClauses.buffer =
      .ok (.added 1, fwReset.appended (ordinaryRule true 0 netUdp 0 {})) := by
  have hwords : tokens isBlank swappedClauses.bytes = [bytesOf "allow", bytesOf "udp", bytesOf "to",
    bytesOf "any", bytesOf "from", bytesOf "any"] := by decide
  refine ⟨fun request h ↦ ?_, ?_⟩
  · rw [hwords] at h
    generalize hlist : [bytesOf "allow", bytesOf "udp", bytesOf "to", bytesOf "any", bytesOf "from",
      bytesOf "any"] = words at h
    cases h with
    | fixed h =>
      have hshort : ∀ form ∈ fixedForms, form.1.length ≠ 6 := by decide
      exact hshort _ h (hlist ▸ rfl)
    | delete => cases hlist
    | block => cases hlist
    | defaultIn => cases hlist
    | defaultOut => cases hlist
    | rule haction hdirection hservice hclauses =>
      obtain ⟨-, hlist⟩ := List.cons.inj hlist
      cases hdirection with
      | omitted =>
        obtain ⟨-, rfl⟩ := List.cons.inj hlist
        exact absurd (hclauses.length_of_to rfl) (by decide)
      | incoming => exact absurd (List.cons.inj hlist).1 (by decide)
      | outgoing => exact absurd (List.cons.inj hlist).1 (by decide)
  · rw [fwCommand_eq, hwords]
    have hrequest : requestOf [bytesOf "allow", bytesOf "udp", bytesOf "to", bytesOf "any", bytesOf "from",
      bytesOf "any"] = some (.append (ordinaryRule true 0 netUdp 0 {})) := by decide
    rw [hrequest]
    rfl

end JordyOS.Policy
