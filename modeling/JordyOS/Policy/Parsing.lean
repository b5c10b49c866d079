import JordyOS.Policy.Command
import JordyOS.Policy.Grammar

/-!
# Words and operands

The words that `fw_command` finds in its argument are the pieces between the blanks, each a string of its
own, and the parts of a rule are read as the grammar says.
-/

namespace JordyOS.Policy

open Machine Net

/-! ## Words -/

variable {maximum rounds position : ℕ} {done rest text : List UInt8} {out : List ℕ}

theorem drop_done (done rest : List UInt8) : (done ++ rest ++ [0]).drop done.length = rest ++ [0] := by
  rw [List.append_assoc, List.drop_left]

theorem wordsLoop_end (maximum rounds : ℕ) (done : List UInt8) (out : List ℕ) :
    wordsLoop maximum (rounds + 1) (done ++ [0]) done.length out = .ok ⟨out.length, out, done ++ [0]⟩ := by
  rw [wordsLoop, List.drop_left]
  rfl

/-- A round that finds only blanks. -/
theorem wordsLoop_blanks {blanks : List UInt8} (hblanks : ∀ c ∈ blanks, isBlank c = true)
    (maximum rounds : ℕ) (done : List UInt8) (out : List ℕ) :
    wordsLoop maximum (rounds + 1) (done ++ blanks ++ [0]) done.length out =
      .ok ⟨out.length, out, done ++ blanks ++ [0]⟩ := by
  cases blanks with
  | nil =>
    rw [List.append_nil]
    exact wordsLoop_end maximum rounds done out
  | cons c blanks =>
    have hc : c ≠ 0 := by
      rintro rfl
      exact absurd (hblanks 0 List.mem_cons_self) (by decide)
    have hskip : skip isBlank ((c :: blanks) ++ [0]) = .ok (c :: blanks).length :=
      skip_append hblanks (by decide) []
    have hend : (done ++ (c :: blanks) ++ [0]).drop (done.length + (c :: blanks).length) = [0] := by
      rw [← List.length_append, List.drop_left]
    rw [wordsLoop, drop_done, hskip]
    change (if c = 0 then _ else
      peek ((done ++ (c :: blanks) ++ [0]).drop (done.length + (c :: blanks).length)) >>= _) = _
    rw [if_neg hc, hend]
    rfl

/-- A round that finds a word, up to the byte behind it. -/
theorem wordsLoop_word {blanks word more : List UInt8} {c : UInt8}
    (htext : text.drop position = blanks ++ (word ++ c :: more)) (hblanks : ∀ b ∈ blanks, isBlank b = true)
    (hword : ∀ b ∈ word, b ≠ 0 ∧ isBlank b = false) (hnonempty : word ≠ [])
    (hc : c = 0 ∨ isBlank c = true) :
    wordsLoop maximum (rounds + 1) text position out =
      if out.length = maximum then .ok ⟨-1, out, text⟩
      else if c = 0 then
        wordsLoop maximum rounds text (position + blanks.length + word.length)
          (out ++ [position + blanks.length])
      else poke text (position + blanks.length + word.length) 0 >>= fun text ↦
        wordsLoop maximum rounds text (position + blanks.length + word.length + 1)
          (out ++ [position + blanks.length]) := by
  obtain ⟨first, others, rfl⟩ := List.exists_cons_of_ne_nil hnonempty
  obtain ⟨hfirst, hfirst_blank⟩ := hword first List.mem_cons_self
  have hstart : text.drop (position + blanks.length) = first :: others ++ c :: more := by
    rw [← List.drop_drop, htext, List.drop_left]
  have hend : text.drop (position + blanks.length + (first :: others).length) = c :: more := by
    rw [← List.drop_drop, hstart, List.drop_left]
  have hskip : skip isBlank (blanks ++ (first :: others ++ c :: more)) = .ok blanks.length :=
    skip_append hblanks hfirst_blank _
  have hlength : skip (fun c ↦ c ≠ 0 && !isBlank c) (first :: others ++ c :: more) =
      .ok (first :: others).length := by
    refine skip_append (fun b hb ↦ ?_) ?_ more
    · simp [hword b hb]
    · rcases hc with rfl | hc
      · rfl
      · simp [hc]
  have hpeek : ∃ d behind, d ≠ 0 ∧ blanks ++ (first :: others ++ c :: more) = d :: behind := by
    cases blanks with
    | nil => exact ⟨first, others ++ c :: more, hfirst, rfl⟩
    | cons b blanks =>
      refine ⟨b, blanks ++ (first :: others ++ c :: more), ?_, rfl⟩
      rintro rfl
      exact absurd (hblanks 0 List.mem_cons_self) (by decide)
  obtain ⟨d, behind, hd, hbehind⟩ := hpeek
  rw [wordsLoop, htext, hskip, hbehind]
  change (if d = 0 then _ else peek (text.drop (position + blanks.length)) >>= _) = _
  rw [if_neg hd, hstart]
  change (if first = 0 then _ else if out.length = maximum then _ else
    skip (fun c ↦ c ≠ 0 && !isBlank c) (first :: others ++ c :: more) >>= _) = _
  rw [if_neg hfirst, hlength]
  by_cases hfull : out.length = maximum
  · rw [if_pos hfull, if_pos hfull]
  · rw [if_neg hfull, if_neg hfull]
    change peek (text.drop (position + blanks.length + (first :: others).length)) >>= _ = _
    rw [hend]
    rfl

/-- What the loop has found behind `done`: the pieces are strings of the text, each behind its pointer, unless there
are too many of them. -/
structure Collected (maximum : ℕ) (done : List UInt8) (found : List Word) (out : List ℕ) (a : Words) : Prop where
  many : maximum < out.length + found.length → a.n = -1
  few : out.length + found.length ≤ maximum → a.n = out.length + found.length ∧ ∃ new back, a.w = out ++ new ∧
    a.text = done ++ back ∧ Layout a.text done.length new found

theorem Collected.nil (hout : out.length ≤ maximum) (done back : List UInt8) :
    Collected maximum done [] out ⟨out.length, out, done ++ back⟩ where
  many hmore := absurd hmore (Nat.not_lt.mpr hout)
  few _ := ⟨(Int.add_zero _).symm, [], back, (List.append_nil _).symm, rfl, .nil _⟩

theorem Collected.full (hfull : out.length = maximum) (done text : List UInt8) (word : Word) (found : List Word) :
    Collected maximum done (word :: found) out ⟨-1, out, text⟩ where
  many _ := rfl
  few hfits := by
    rw [List.length_cons] at hfits
    omega

/-- A piece, with the blanks in front of it and the zero that is written behind it. -/
theorem Collected.cons {blanks word : List UInt8} {found : List Word} {a : Words} (hword : ∀ b ∈ word, b ≠ 0)
    (h : Collected maximum (done ++ blanks ++ word ++ [0]) found (out ++ [done.length + blanks.length]) a) :
    Collected maximum done (word :: found) out a := by
  have hpointers : (out ++ [done.length + blanks.length]).length = out.length + 1 := List.length_append
  have hdone : (done ++ blanks ++ word ++ [0]).length = done.length + blanks.length + word.length + 1 := by
    rw [List.length_append, List.length_append, List.length_append, List.length_singleton]
  obtain ⟨hmany, hfew⟩ := h
  rw [hpointers] at hmany hfew
  rw [hdone] at hfew
  refine ⟨fun hmore ↦ hmany ?_, fun hfits ↦ ?_⟩
  · rw [List.length_cons] at hmore
    omega
  · rw [List.length_cons] at hfits ⊢
    obtain ⟨hn, new, back, hw, htext, hlayout⟩ := hfew (by omega)
    have hshape : a.text = (done ++ blanks) ++ (word ++ 0 :: back) := by
      rw [htext]
      simp only [List.append_assoc, List.cons_append, List.nil_append]
    have hstring : StringAt a.text (done.length + blanks.length) word := by
      refine ⟨hword, back, ?_⟩
      rw [hshape, ← List.length_append, List.drop_left]
    refine ⟨by omega, (done.length + blanks.length) :: new, blanks ++ (word ++ 0 :: back), ?_, ?_, ?_⟩
    · rw [hw, List.append_assoc, List.singleton_append]
    · rw [hshape, List.append_assoc]
    · exact .cons (Nat.le_add_right _ _) hstring hlayout

/-- A round that finds the last piece. -/
theorem wordsLoop_last {blanks word : List UInt8} (hblanks : ∀ b ∈ blanks, isBlank b = true)
    (hword : ∀ b ∈ word, b ≠ 0 ∧ isBlank b = false) (hnonempty : word ≠ []) (hout : out.length ≤ maximum)
    (rounds : ℕ) (done : List UInt8) :
    ∃ a, wordsLoop maximum (rounds + 2) (done ++ (blanks ++ word) ++ [0]) done.length out = .ok a ∧
      Collected maximum done [word] out a := by
  have htext : (done ++ (blanks ++ word) ++ [0]).drop done.length = blanks ++ (word ++ 0 :: []) := by
    rw [drop_done, List.append_assoc]
  have hlength : (done ++ blanks ++ word).length = done.length + blanks.length + word.length := by
    rw [List.length_append, List.length_append]
  rw [wordsLoop_word htext hblanks hword hnonempty (.inl rfl)]
  by_cases hfull : out.length = maximum
  · rw [if_pos hfull]
    exact ⟨_, rfl, .full hfull done _ word []⟩
  · have hroom : (out ++ [done.length + blanks.length]).length ≤ maximum := by
      rw [List.length_append, List.length_singleton]
      omega
    have hend := Collected.nil hroom (done ++ blanks ++ word ++ [0]) []
    rw [List.append_nil] at hend
    rw [if_neg hfull, if_pos rfl, ← List.append_assoc, ← hlength, wordsLoop_end]
    exact ⟨_, rfl, hend.cons fun b hb ↦ (hword b hb).1⟩

/-- A round that finds a piece with a blank behind it. -/
theorem wordsLoop_next {blanks word after : List UInt8} {e : UInt8} (hblanks : ∀ b ∈ blanks, isBlank b = true)
    (hword : ∀ b ∈ word, b ≠ 0 ∧ isBlank b = false) (hnonempty : word ≠ []) (he : isBlank e = true)
    (done : List UInt8) :
    wordsLoop maximum (rounds + 1) (done ++ (blanks ++ (word ++ e :: after)) ++ [0]) done.length out =
      if out.length = maximum then .ok ⟨-1, out, done ++ (blanks ++ (word ++ e :: after)) ++ [0]⟩
      else wordsLoop maximum rounds (done ++ blanks ++ word ++ [0] ++ after ++ [0])
        (done ++ blanks ++ word ++ [0]).length (out ++ [done.length + blanks.length]) := by
  have hezero : e ≠ 0 := by
    rintro rfl
    exact absurd he (by decide)
  have htext : (done ++ (blanks ++ (word ++ e :: after)) ++ [0]).drop done.length =
      blanks ++ (word ++ e :: (after ++ [0])) := by
    rw [drop_done]
    simp only [List.append_assoc, List.cons_append]
  have hlength : (done ++ blanks ++ word).length = done.length + blanks.length + word.length := by
    rw [List.length_append, List.length_append]
  have hdrop : (done ++ (blanks ++ (word ++ e :: after)) ++ [0]).drop 0 =
      done ++ blanks ++ word ++ e :: (after ++ [0]) := by
    rw [List.drop_zero]
    simp only [List.append_assoc, List.cons_append]
  obtain ⟨hpoke, hshape, -⟩ := poke_drop hdrop 0
  rw [List.drop_zero] at hshape
  rw [hshape, Nat.zero_add, hlength] at hpoke
  have hdone : (done ++ blanks ++ word ++ [0]).length = done.length + blanks.length + word.length + 1 := by
    rw [List.length_append, hlength, List.length_singleton]
  rw [wordsLoop_word htext hblanks hword hnonempty (.inr he), if_neg hezero, hpoke, hdone]
  simp only [List.append_assoc, List.cons_append, List.nil_append]
  rfl

theorem wordsLoop_eq (hrest : ∀ c ∈ rest, c ≠ 0) (hrounds : rest.length < rounds)
    (done : List UInt8) (out : List ℕ) (hout : out.length ≤ maximum) :
    ∃ a, wordsLoop maximum rounds (done ++ rest ++ [0]) done.length out = .ok a ∧
      Collected maximum done (tokens isBlank rest) out a := by
  induction rounds generalizing rest done out with
  | zero => omega
  | succ rounds ih =>
    obtain ⟨blanks, tail, rfl, hblanks, htail⟩ := exists_span isBlank rest
    rw [tokens_append hblanks]
    cases tail with
    | nil =>
      rw [List.append_nil, tokens_nil]
      refine ⟨_, wordsLoop_blanks hblanks maximum rounds done out, ?_⟩
      rw [List.append_assoc]
      exact .nil hout done (blanks ++ [0])
    | cons first others =>
      obtain ⟨word, after, hsplit, hword, hafter⟩ := exists_span (fun c ↦ !isBlank c) (first :: others)
      have hnonempty : word ≠ [] := by
        rintro rfl
        have hhead : (first :: others).head? = after.head? := congrArg List.head? hsplit
        have hblank := hafter first (hhead ▸ rfl)
        simp [htail first rfl] at hblank
      rw [hsplit] at hrest hrounds ⊢
      have hbytes : ∀ b ∈ word, b ≠ 0 ∧ isBlank b = false := fun b hb ↦
        ⟨hrest b (List.mem_append_right _ (List.mem_append_left _ hb)), by simpa using hword b hb⟩
      have hpos := List.length_pos_of_ne_nil hnonempty
      rw [List.length_append, List.length_append] at hrounds
      cases after with
      | nil =>
        obtain ⟨rounds, rfl⟩ : ∃ r, rounds = r + 1 := ⟨rounds - 1, by omega⟩
        rw [List.append_nil, tokens_word hnonempty fun b hb ↦ (hbytes b hb).2]
        exact wordsLoop_last hblanks hbytes hnonempty hout rounds done
      | cons e after =>
        have he : isBlank e = true := by simpa using hafter e rfl
        rw [tokens_word_append hnonempty (fun b hb ↦ (hbytes b hb).2) he,
          wordsLoop_next hblanks hbytes hnonempty he done]
        by_cases hfull : out.length = maximum
        · rw [if_pos hfull]
          exact ⟨_, rfl, .full hfull done _ word _⟩
        · have hroom : (out ++ [done.length + blanks.length]).length ≤ maximum := by
            rw [List.length_append, List.length_singleton]
            omega
          have hlater : ∀ c ∈ after, c ≠ 0 := fun c hc ↦ hrest c
            (List.mem_append_right _ (List.mem_append_right _ (List.mem_cons_of_mem e hc)))
          rw [List.length_cons] at hrounds
          obtain ⟨a, hloop, hcollected⟩ := ih hlater (by omega) (done ++ blanks ++ word ++ [0]) _ hroom
          rw [if_neg hfull]
          exact ⟨a, hloop, hcollected.cons fun b hb ↦ (hbytes b hb).1⟩

/-- Word `i` is a string of the text. -/
def Words.Holds (a : Words) (i : ℕ) (word : Word) : Prop :=
  ∃ pointer, a.w[i]? = some pointer ∧ StringAt a.text pointer word

/-- The words of the text were found. -/
structure Words.Found (a : Words) (found : List Word) : Prop where
  n : a.n = found.length
  layout : Layout a.text 0 a.w found

theorem words_eq (s : CString) (maximum : ℕ) : ∃ a, words s.buffer maximum = .ok a ∧
    (maximum < (tokens isBlank s.bytes).length → a.n = -1) ∧
    ((tokens isBlank s.bytes).length ≤ maximum → a.Found (tokens isBlank s.bytes)) := by
  have hrounds : s.bytes.length < s.buffer.length := by
    rw [CString.buffer, List.length_append]
    exact Nat.lt_succ_self _
  obtain ⟨a, hloop, ⟨hmany, hfew⟩⟩ := wordsLoop_eq s.nonzero hrounds [] [] (Nat.zero_le maximum)
  rw [List.length_nil, Nat.zero_add] at hmany hfew
  refine ⟨a, hloop, hmany, fun hfits ↦ ?_⟩
  obtain ⟨hn, new, back, hw, -, hlayout⟩ := hfew hfits
  rw [List.nil_append] at hw
  exact ⟨hn.trans (Int.zero_add _), hw ▸ hlayout⟩

variable {a : Words} {found : List Word} {word : Word} {i : ℕ} {literal : String}

theorem Words.Found.holds (h : a.Found found) (hi : found[i]? = some word) : a.Holds i word := by
  obtain ⟨pointer, hpointer, hword, -⟩ := h.layout.split hi
  exact ⟨pointer, hpointer, hword⟩

theorem Words.Holds.get (h : a.Holds i word) :
    ∃ rest, a.get i = .ok (word ++ 0 :: rest) ∧ ∀ c ∈ word, c ≠ 0 := by
  obtain ⟨pointer, hpointer, hnonzero, rest, hdrop⟩ := h
  refine ⟨rest, ?_, hnonzero⟩
  rw [Words.get, hpointer, ← hdrop]

theorem Words.Holds.is (h : a.Holds i word) (hliteral : ∀ c ∈ bytesOf literal, c ≠ 0) :
    a.is i literal = .ok (decide (word = bytesOf literal)) := by
  obtain ⟨rest, hget, hnonzero⟩ := h.get
  have hsame := sameString_eq hnonzero hliteral rest []
  rw [Words.is, hget]
  exact hsame

theorem Words.only_of_ne (h : a.n ≠ 1) (literal : String) : a.only literal = .ok false := by
  rw [Words.only, beq_eq_false_iff_ne.mpr h]
  rfl

theorem Words.Found.only (h : a.Found found) (hliteral : ∀ c ∈ bytesOf literal, c ≠ 0) :
    a.only literal = .ok (decide (found = [bytesOf literal])) := by
  by_cases hone : found.length = 1
  · obtain ⟨word, rfl⟩ := List.length_eq_one_iff.mp hone
    have hn : a.n = 1 := h.n
    have hword : a.Holds 0 word := h.holds rfl
    rw [Words.only, hn, hword.is hliteral]
    simp [andThen]
  · have hn : a.n ≠ 1 := by
      rw [h.n]
      omega
    rw [Words.only_of_ne hn, decide_eq_false (by rintro rfl; exact hone rfl)]

/-! ## Operands -/

variable {address mask : UInt32}

theorem action_eq (hword : ∀ c ∈ word, c ≠ 0) (rest : List UInt8) :
    action (word ++ 0 :: rest) = .ok (actionOf word) := by
  have hallow := sameString_eq hword (by decide : ∀ c ∈ bytesOf "allow", c ≠ 0) rest []
  have hdeny := sameString_eq hword (by decide : ∀ c ∈ bytesOf "deny", c ≠ 0) rest []
  rw [action, hallow, hdeny, actionOf]
  by_cases h : word = bytesOf "allow"
  · rw [if_pos h, decide_eq_true h]
    rfl
  · rw [if_neg h, decide_eq_false h]
    by_cases h : word = bytesOf "deny"
    · rw [if_pos h, decide_eq_true h]
      rfl
    · rw [if_neg h, decide_eq_false h]
      rfl

theorem attempt_netNumber (hword : ∀ c ∈ word, c ≠ 0) (rest : List UInt8) (maximum : UInt32) :
    attempt (netNumber (word ++ 0 :: rest) maximum) = .ok ((numberOf word maximum.toNat).map UInt32.ofNat) := by
  rw [netNumber_eq hword, numberOf]
  split
  · rfl
  · rfl

theorem operand_eq (h : a.Holds i word) (stack : ℕ → Fin 4 → UInt8) (address mask : UInt32) :
    operand stack a i address mask = .ok (operandOf word address mask) := by
  obtain ⟨rest, hget, hnonzero⟩ := h.get
  rw [operand, h.is (by decide), hget, operandOf]
  change (if decide (word = bytesOf "any") = true then _ else attempt (netCidr stack (word ++ 0 :: rest))) = _
  rw [netCidr_eq_cidrOf hnonzero]
  by_cases hany : word = bytesOf "any"
  · rw [if_pos (decide_eq_true hany), if_pos hany]
  · rw [if_neg (by simpa using hany), if_neg hany]

/-! ## Services -/

variable {pointer : ℕ} {rule : FirewallRule}

/-- The rule with the fields that a service sets. -/
def withService (rule : FirewallRule) (service : UInt8 × UInt16) : FirewallRule :=
  { rule with protocol := service.1, port := service.2 }

/-- The part of `service` behind the port. -/
theorem servicePort_eq {digits name : Word} (hdigits : ∀ c ∈ digits, c ≠ 0) (hname : ∀ c ∈ name, c ≠ 0)
    (rest : List UInt8) (rule : FirewallRule) (text : List UInt8) :
    (attempt (netNumber (digits ++ 0 :: (name ++ 0 :: rest)) 65535) >>= fun port ↦
      match port with
      | none => .ok (none, text)
      | some port =>
        if port = 0 then .ok (none, text)
        else do
          let tcp ← sameString (name ++ 0 :: rest) (bytesOf "tcp" ++ [0])
          if tcp then .ok (some { rule with protocol := netTcp, port := port.toUInt16 }, text)
          else
            let udp ← sameString (name ++ 0 :: rest) (bytesOf "udp" ++ [0])
            if udp then .ok (some { rule with protocol := netUdp, port := port.toUInt16 }, text)
            else .ok (none, text)) =
      (.ok ((portService digits name).map (withService rule), text) : Scan (Option FirewallRule × List UInt8)) := by
  have htcp := sameString_eq hname (by decide : ∀ c ∈ bytesOf "tcp", c ≠ 0) rest []
  have hudp := sameString_eq hname (by decide : ∀ c ∈ bytesOf "udp", c ≠ 0) rest []
  have hmaximum : (65535 : UInt32).toNat = 65535 := rfl
  rw [attempt_netNumber hdigits, htcp, hudp, hmaximum, portService, portOf, portOf]
  cases hnumber : numberOf digits 65535 with
  | none => simp [Option.map, bind, Except.bind]
  | some n =>
    obtain ⟨htext, rfl⟩ := numberOf_eq_some.mp hnumber
    have hsmall := htext.small
    have hport : UInt32.ofNat (decimalValue digits) = 0 ↔ decimalValue digits = 0 := by
      rw [← UInt32.toNat_inj, UInt32.toNat_ofNat_of_lt' (by rw [UInt32.size]; omega), UInt32.toNat_zero]
    have hword : (UInt32.ofNat (decimalValue digits)).toUInt16 = UInt16.ofNat (decimalValue digits) := by
      rw [← UInt16.toNat_inj, UInt32.toNat_toUInt16, UInt32.toNat_ofNat', UInt16.toNat_ofNat']
      omega
    have hdifferent : bytesOf "udp" ≠ bytesOf "tcp" := by decide
    by_cases hzero : decimalValue digits = 0
    · simp [hzero, bind, Except.bind]
    · by_cases htcp : name = bytesOf "tcp"
      · simp [hzero, hport, htcp, hword, withService, bind, Except.bind]
      · by_cases hudp : name = bytesOf "udp"
        · simp [hzero, hport, hudp, hdifferent, hword, withService, bind, Except.bind]
        · simp [hzero, hport, htcp, hudp, bind, Except.bind]

theorem serviceOf_of_not_mem (h : slash ∉ word) (hall : word ≠ bytesOf "all") (hicmp : word ≠ bytesOf "icmp")
    (htcp : word ≠ bytesOf "tcp") (hudp : word ≠ bytesOf "udp") : serviceOf word = none := by
  have hdrop : word.dropWhile (· ≠ slash) = [] := by
    refine List.dropWhile_eq_nil_iff.mpr fun c hc ↦ decide_eq_true ?_
    rintro rfl
    exact h hc
  rw [serviceOf, if_neg hall, if_neg hicmp, if_neg htcp, if_neg hudp, hdrop]

/-- The service is read as the grammar says, and the words behind it stay as they are. -/
theorem service_eq (hword : StringAt text pointer word) (rule : FirewallRule)
    (hrule : rule.protocol = 0 ∧ rule.port = 0) :
    ∃ text', service text pointer rule = .ok ((serviceOf word).map (withService rule), text') ∧
      ∀ pointers later, Layout text (pointer + word.length + 1) pointers later →
        Layout text' (pointer + word.length + 1) pointers later := by
  obtain ⟨hnonzero, rest, hdrop⟩ := hword
  have hkeyword (literal : String) (hliteral : ∀ c ∈ bytesOf literal, c ≠ 0) :
      sameString (text.drop pointer) (bytesOf literal ++ [0]) = .ok (decide (word = bytesOf literal)) := by
    rw [hdrop]
    exact sameString_eq hnonzero hliteral rest []
  have hsame : withService rule (0, 0) = rule := by
    rw [withService, ← hrule.1, ← hrule.2]
  have hport (protocol : UInt8) : withService rule (protocol, 0) = { rule with protocol := protocol } := by
    rw [withService, ← hrule.2]
  rw [service, hkeyword "all" (by decide), hkeyword "icmp" (by decide), hkeyword "tcp" (by decide),
    hkeyword "udp" (by decide)]
  by_cases hall : word = bytesOf "all"
  · refine ⟨text, ?_, fun _ _ h ↦ h⟩
    rw [decide_eq_true hall, serviceOf, if_pos hall, Option.map_some, hsame]
    rfl
  by_cases hicmp : word = bytesOf "icmp"
  · refine ⟨text, ?_, fun _ _ h ↦ h⟩
    rw [decide_eq_false hall, decide_eq_true hicmp, serviceOf, if_neg hall, if_pos hicmp, Option.map_some, hport]
    rfl
  by_cases htcp : word = bytesOf "tcp"
  · refine ⟨text, ?_, fun _ _ h ↦ h⟩
    rw [decide_eq_false hall, decide_eq_false hicmp, decide_eq_true htcp, serviceOf, if_neg hall,
      if_neg hicmp, if_pos htcp, Option.map_some, hport]
    rfl
  by_cases hudp : word = bytesOf "udp"
  · refine ⟨text, ?_, fun _ _ h ↦ h⟩
    rw [decide_eq_false hall, decide_eq_false hicmp, decide_eq_false htcp, decide_eq_true hudp, serviceOf,
      if_neg hall, if_neg hicmp, if_neg htcp, if_pos hudp, Option.map_some, hport]
    rfl
  rw [decide_eq_false hall, decide_eq_false hicmp, decide_eq_false htcp, decide_eq_false hudp]
  change ∃ text', (skip (fun c ↦ c ≠ 0 && c ≠ slash) (text.drop pointer) >>= _) = _ ∧ _
  obtain ⟨digits, tail, rfl, hdigits, htail⟩ := exists_span (fun c ↦ decide (c ≠ slash)) word
  have hpass : ∀ c ∈ digits, (c ≠ 0 && c ≠ slash) = true := by
    intro c hc
    have hzero := hnonzero c (List.mem_append_left _ hc)
    have hslash := hdigits c hc
    simpa [hzero] using hslash
  cases tail with
  | nil =>
    rw [List.append_nil] at hdrop hall hicmp htcp hudp ⊢
    have hno : slash ∉ digits := fun hmem ↦ absurd (hdigits slash hmem) (by decide)
    have hend : text.drop (pointer + digits.length) = 0 :: rest := by
      rw [← List.drop_drop, hdrop, List.drop_left]
    refine ⟨text, ?_, fun _ _ h ↦ h⟩
    rw [serviceOf_of_not_mem hno hall hicmp htcp hudp, hdrop, skip_append hpass (by decide)]
    change peek (text.drop (pointer + digits.length)) >>= _ = _
    rw [hend]
    rfl
  | cons c name =>
    obtain rfl : c = slash := by simpa using htail c rfl
    rw [List.append_assoc, List.cons_append] at hdrop
    have hat : text.drop (pointer + digits.length) = slash :: (name ++ 0 :: rest) := by
      rw [← List.drop_drop, hdrop, List.drop_left]
    have hslash : ∀ c ∈ digits, c ≠ slash := fun c hc ↦ of_decide_eq_true (hdigits c hc)
    obtain ⟨hpoke, hfront, hback⟩ := poke_drop hdrop 0
    refine ⟨text.set (pointer + digits.length) 0, ?_, fun pointers later hlayout ↦ hlayout.set ?_ 0⟩
    · rw [serviceOf_append hslash, hdrop, skip_append hpass (by decide)]
      change peek (text.drop (pointer + digits.length)) >>= _ = _
      rw [hat]
      change poke text (pointer + digits.length) 0 >>= _ = _
      rw [hpoke, ← servicePort_eq (fun c hc ↦ hnonzero c (List.mem_append_left _ hc))
        (fun c hc ↦ hnonzero c (List.mem_append_right _ (List.mem_cons_of_mem _ hc))) rest, ← hfront, ← hback]
      rfl
    · rw [List.length_append]
      omega

/-! ## Clauses -/

def FirewallRule.endpoints (rule : FirewallRule) : Endpoints :=
  ⟨rule.source, rule.sourceMask, rule.destination, rule.destinationMask⟩

def FirewallRule.withEndpoints (rule : FirewallRule) (e : Endpoints) : FirewallRule :=
  { rule with
    source := e.source
    sourceMask := e.sourceMask
    destination := e.destination
    destinationMask := e.destinationMask }

/-- From any word on the loop reads the clauses as the grammar says. -/
theorem clauseLoop_eq (stack : ℕ → Fin 4 → UInt8) (a : Words) (hn : a.n = found.length) (hi : i ≤ found.length)
    (hholds : ∀ j, i ≤ j → ∀ word, found[j]? = some word → a.Holds j word) (rounds : ℕ)
    (hrounds : found.length < i + rounds) (fromSeen toSeen : Bool) (rule : FirewallRule) :
    clauseLoop stack a rounds i fromSeen toSeen rule =
      .ok ((clausesOf (found.drop i) fromSeen toSeen rule.endpoints).map rule.withEndpoints) := by
  induction rounds generalizing i fromSeen toSeen rule with
  | zero => omega
  | succ rounds ih =>
    rw [clauseLoop]
    by_cases hend : found.length = i
    · rw [if_pos (by omega), List.drop_of_length_le (by omega)]
      rfl
    rw [if_neg (by omega), List.drop_eq_getElem_cons (by omega)]
    by_cases hlast : found.length = i + 1
    · rw [if_pos (by omega), List.drop_of_length_le (by omega)]
      rfl
    have hkey := hholds i (Nat.le_refl i) _ (List.getElem?_eq_getElem (by omega))
    have hword := hholds (i + 1) (Nat.le_succ i) _ (List.getElem?_eq_getElem (by omega))
    have hlater := ih (by omega : i + 2 ≤ found.length) (fun j hj ↦ hholds j (by omega)) (by omega)
    rw [if_neg (by omega), List.drop_eq_getElem_cons (by omega), hkey.is (by decide), hkey.is (by decide),
      operand_eq hword, operand_eq hword, clausesOf]
    simp only [ok_bind, hlater]
    by_cases hfrom : found[i] = bytesOf "from" ∧ fromSeen = false
    · rw [if_pos hfrom, if_pos (by simp [hfrom])]
      dsimp only [FirewallRule.endpoints]
      cases operandOf found[i + 1] rule.source rule.sourceMask <;> rfl
    · rw [if_neg hfrom, if_neg (by simpa using hfrom)]
      by_cases hto : found[i] = bytesOf "to" ∧ toSeen = false
      · rw [if_pos hto, if_pos (by simp [hto])]
        dsimp only [FirewallRule.endpoints]
        cases operandOf found[i + 1] rule.destination rule.destinationMask <;> rfl
      · rw [if_neg hto, if_neg (by simpa using hto)]
        rfl

end JordyOS.Policy
