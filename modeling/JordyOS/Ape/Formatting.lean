import JordyOS.Ape.Expansion
import Mathlib.Algebra.Order.Ring.Nat
import Mathlib.Data.List.GetD
import Mathlib.Tactic.Common

/-!
# Formatted output as the expansion

Each part of `vsnprintf` emits what the expansion says, as long as the whole of it is shorter than an `int` can count.
-/

namespace JordyOS.Ape

open Machine

variable {buffer : Memory} {size n p rounds : ℕ} {e text : List UInt8} {o : Output} {args left : List Arg} {c : UInt8}

/-! ## Output -/

/-- The output is the text so far, as far as the buffer holds it with a terminator. -/
structure Output.Shows (buffer : Memory) (size : ℕ) (e : List UInt8) (o : Output) : Prop where
  used : o.used = e.length
  capacity : o.capacity = size
  data : ∀ i, o.data i = if i + 1 < size ∧ i < e.length then e.getD i 0 else buffer i

theorem Output.Shows.start (buffer : Memory) (size : ℕ) : Output.Shows buffer size [] ⟨buffer, size, 0⟩ :=
  ⟨rfl, rfl, fun _ ↦ (if_neg (fun h ↦ absurd h.2 (Nat.not_lt_zero _))).symm⟩

theorem Output.Shows.emit (h : o.Shows buffer size e) (hlength : e.length + 1 < 2 ^ 64) (c : UInt8) :
    (emit o c).Shows buffer size (e ++ [c]) := by
  have hnext : (o.used + 1) % 2 ^ 64 = e.length + 1 := by
    rw [h.used]
    exact Nat.mod_eq_of_lt hlength
  refine ⟨?_, h.capacity, fun i ↦ ?_⟩
  · rw [List.length_append, List.length_singleton, ← hnext]
    rfl
  · change (if (o.used + 1) % 2 ^ 64 < o.capacity then o.data.set o.used c else o.data) i = _
    rw [hnext, h.capacity, h.used, List.length_append, List.length_singleton]
    rcases Nat.lt_trichotomy i e.length with hlt | rfl | hgt
    · have hold : (if e.length + 1 < size then o.data.set e.length c else o.data) i = o.data i := by
        split
        · exact Memory.set_of_ne _ _ hlt.ne
        · rfl
      rw [hold, h.data, List.getD_append _ _ _ _ hlt]
      exact if_congr (by omega) rfl rfl
    · by_cases hroom : e.length + 1 < size
      · rw [if_pos hroom, Memory.set_self, if_pos ⟨hroom, Nat.lt_succ_self _⟩,
          List.getD_append_right _ _ _ _ (Nat.le_refl _), Nat.sub_self]
        rfl
      · rw [if_neg hroom, if_neg (fun hboth ↦ hroom hboth.1), h.data, if_neg (fun hboth ↦ hroom hboth.1)]
    · have hold : (if e.length + 1 < size then o.data.set e.length c else o.data) i = o.data i := by
        split
        · exact Memory.set_of_ne _ _ hgt.ne'
        · rfl
      rw [hold, h.data, if_neg (by omega), if_neg (by omega)]

def emitAll (o : Output) (text : List UInt8) : Output := text.foldl emit o

theorem emitAll_append (o : Output) (first second : List UInt8) :
    emitAll o (first ++ second) = emitAll (emitAll o first) second := List.foldl_append

theorem Output.Shows.emitAll (h : o.Shows buffer size e) (hlength : (e ++ text).length < 2 ^ 64) :
    (emitAll o text).Shows buffer size (e ++ text) := by
  induction text generalizing e o with
  | nil => rwa [List.append_nil]
  | cons c text ih =>
    have hsame : e ++ c :: text = e ++ [c] ++ text := by rw [List.append_assoc, List.singleton_append]
    rw [hsame] at hlength ⊢
    refine ih (h.emit ?_ c) hlength
    rw [List.length_append, List.length_append, List.length_singleton] at hlength
    omega

/-! ## The parts of a directive -/

/-- The precision counts down to zero, or the string ends before. -/
theorem emitText_eq (s : CString) (o : Output) (hp : p < 2 ^ 32) :
    emitText o s.buffer p = .ok (emitAll o (s.bytes.take p)) := by
  obtain ⟨bytes, hbytes⟩ := s
  unfold CString.buffer
  dsimp only
  induction bytes generalizing o p with
  | nil => rw [List.take_nil, List.nil_append, emitText, if_pos rfl]; rfl
  | cons c bytes ih =>
    rw [List.cons_append, emitText, if_neg (hbytes c List.mem_cons_self)]
    cases p with
    | zero => rw [if_pos rfl, List.take_zero]; rfl
    | succ p =>
      have hdown : (p + 1 + (2 ^ 32 - 1)) % 2 ^ 32 = p := by omega
      rw [if_neg (Nat.succ_ne_zero p), hdown, ih _ (by omega) fun d hd ↦ hbytes d (List.mem_cons_of_mem _ hd),
        List.take_succ_cons]
      rfl

theorem integerDigits_eq (hn : n < 10 ^ rounds) (digits : List UInt8) (hpos : 0 < rounds) :
    integerDigits rounds n digits = .ok (decimalText n ++ digits) := by
  induction rounds generalizing n digits with
  | zero => exact absurd hpos (Nat.lt_irrefl 0)
  | succ rounds ih =>
    rw [integerDigits]
    by_cases hlast : n / 10 = 0
    · rw [if_pos hlast, decimalText_of_lt (by omega)]
      rfl
    · have hrounds : 0 < rounds := by
        refine Nat.pos_of_ne_zero fun hzero ↦ hlast ?_
        rw [hzero] at hn
        omega
      have hsmall : n / 10 < 10 ^ rounds := by
        rw [pow_succ] at hn
        omega
      have htext := decimalText_of_le (by omega : 10 ≤ n)
      rw [if_neg hlast, ih hsmall _ hrounds, htext, List.append_assoc, List.singleton_append]

/-- The buffer of `integer` holds each machine word. -/
theorem integer_eq (o : Output) (hn : n < 2 ^ 64) : integer o n = .ok (emitAll o (decimalText n)) := by
  rw [integer, integerDigits_eq (hn.trans (by decide)) [] (by decide), ok_bind, List.append_nil]
  rfl

theorem bytesOf_append (first second : String) : bytesOf (first ++ second) = bytesOf first ++ bytesOf second := by
  rw [bytesOf, String.toList_append, List.map_append]
  rfl

/-- The text of an integer. -/
theorem bytesOf_toString (n : ℤ) :
    bytesOf (toString n) = if n < 0 then '-'.toUInt8 :: decimalText n.natAbs else decimalText n.natAbs := by
  rw [Int.toString_eq_repr, Int.repr_eq_if]
  by_cases hneg : n < 0
  · have habs : (-n).toNat = n.natAbs := by omega
    rw [if_neg (by omega), if_pos hneg, bytesOf_append, habs]
    rfl
  · have habs : n.toNat = n.natAbs := by omega
    rw [if_pos (by omega), if_neg hneg, habs]
    rfl

/-- Negating the machine word leaves the absolute value, also of the most negative number. -/
theorem convertSigned_eq (o : Output) {n : ℤ} (hlow : -2 ^ 63 ≤ n) (hhigh : n < 2 ^ 63) :
    convertSigned o n = .ok (emitAll o (bytesOf (toString n))) := by
  unfold convertSigned
  dsimp only
  rw [bytesOf_toString]
  by_cases hneg : n < 0
  · have habs : (2 ^ 64 - (n % 2 ^ 64).toNat) % 2 ^ 64 = n.natAbs := by omega
    rw [if_pos hneg, if_pos hneg, habs, integer_eq _ (by omega)]
    rfl
  · have habs : (n % 2 ^ 64).toNat = n.natAbs := by omega
    rw [if_neg hneg, if_neg hneg, habs, integer_eq _ (by omega)]

/-- The machine's precision for that of a directive. -/
def precisionWord : Option ℤ → ℕ
  | none => 2 ^ 32 - 1
  | some n => (n % 2 ^ 32).toNat

/-- The text that a precision limits, as long as it is short. -/
theorem take_precisionWord {precision : Option ℤ} (hrange : ∀ n ∈ precision, -2 ^ 31 ≤ n ∧ n < 2 ^ 31)
    (hshort : (limited precision text).length < 2 ^ 31) :
    text.take (precisionWord precision) = limited precision text := by
  cases precision with
  | none =>
    change text.length < 2 ^ 31 at hshort
    exact List.take_of_length_le (by change text.length ≤ 2 ^ 32 - 1; omega)
  | some n =>
    have hn := hrange n rfl
    unfold limited precisionWord at *
    dsimp only at *
    by_cases hneg : n < 0
    · rw [if_pos hneg] at hshort ⊢
      exact List.take_of_length_le (by omega)
    · rw [if_neg hneg]
      congr 1
      omega

theorem lowByte_eq (n : Int32) : UInt8.ofNat (unsignedOf n) = UInt8.ofNat (n.toInt % 256).toNat := by
  rw [← UInt8.toNat_inj, UInt8.toNat_ofNat', UInt8.toNat_ofNat', unsignedOf]
  omega

theorem emitText_string (s : Option CString) (o : Output) (hp : p < 2 ^ 32) :
    emitText o (s.elim nullText CString.buffer) p =
      .ok (emitAll o ((s.elim (bytesOf "(null)") CString.bytes).take p)) := by
  cases s with
  | none => exact emitText_eq ⟨bytesOf "(null)", by decide⟩ o hp
  | some s => exact emitText_eq s o hp

/-- A conversion emits what its directive makes of the argument. -/
theorem convert_eq {d : Directive} {precision : Option ℤ} (o : Output)
    (hrange : ∀ n ∈ precision, -2 ^ 31 ≤ n ∧ n < 2 ^ 31) (hconverted : d.converted precision args = some (text, left))
    (hshort : text.length < 2 ^ 31) :
    convert d.conversion d.wide (precisionWord precision) args o = .ok (left, emitAll o text) := by
  have hword : precisionWord precision < 2 ^ 32 := by
    cases precision with
    | none => decide
    | some n => change (n % 2 ^ 32).toNat < 2 ^ 32; omega
  unfold Directive.converted at hconverted
  unfold convert
  by_cases hpercent : d.conversion = percent
  · rw [if_pos hpercent] at hconverted ⊢
    obtain ⟨rfl, rfl⟩ := Prod.mk.inj (Option.some.inj hconverted)
    rfl
  rw [if_neg hpercent] at hconverted ⊢
  by_cases hs : d.conversion = 's'.toUInt8
  · rw [if_pos hs] at hconverted ⊢
    match args, hconverted with
    | .string s :: rest, hconverted =>
      obtain ⟨rfl, rfl⟩ := Prod.mk.inj (Option.some.inj hconverted)
      rw [takeString, ok_bind]
      dsimp only
      rw [emitText_string s o hword, take_precisionWord hrange hshort]
      rfl
  rw [if_neg hs] at hconverted ⊢
  by_cases hc : d.conversion = 'c'.toUInt8
  · rw [if_pos hc] at hconverted ⊢
    match args, hconverted with
    | .int n :: rest, hconverted =>
      obtain ⟨rfl, rfl⟩ := Prod.mk.inj (Option.some.inj hconverted)
      rw [takeInt, ok_bind, ← lowByte_eq]
      rfl
  rw [if_neg hc] at hconverted ⊢
  by_cases hd : d.conversion = 'd'.toUInt8
  · rw [if_pos hd] at hconverted ⊢
    generalize d.wide = wide at hconverted ⊢
    match args, wide, hconverted with
    | .int n :: rest, false, hconverted =>
      obtain ⟨rfl, rfl⟩ := Prod.mk.inj (Option.some.inj hconverted)
      have hlow := n.le_toInt
      have hhigh := n.toInt_lt
      have hsigned := convertSigned_eq o (by omega : -2 ^ 63 ≤ n.toInt) (by omega)
      change (convertSigned o n.toInt >>= fun o ↦ .ok (rest, o)) = _
      rw [hsigned, ok_bind]
    | .long n :: rest, true, hconverted =>
      obtain ⟨rfl, rfl⟩ := Prod.mk.inj (Option.some.inj hconverted)
      have hsigned := convertSigned_eq o n.le_toInt n.toInt_lt
      change (convertSigned o n.toInt >>= fun o ↦ .ok (rest, o)) = _
      rw [hsigned, ok_bind]
  rw [if_neg hd] at hconverted ⊢
  by_cases hu : d.conversion = 'u'.toUInt8
  · rw [if_pos hu] at hconverted ⊢
    generalize d.wide = wide at hconverted ⊢
    match args, wide, hconverted with
    | .unsigned n :: rest, false, hconverted =>
      obtain ⟨rfl, rfl⟩ := Prod.mk.inj (Option.some.inj hconverted)
      have hsmall := n.toNat_lt
      change (integer o n.toNat >>= fun o ↦ .ok (rest, o)) = _
      rw [integer_eq o (by omega), ok_bind]
      rfl
    | .unsignedLong n :: rest, true, hconverted =>
      obtain ⟨rfl, rfl⟩ := Prod.mk.inj (Option.some.inj hconverted)
      change (integer o n.toNat >>= fun o ↦ .ok (rest, o)) = _
      rw [integer_eq o n.toNat_lt, ok_bind]
      rfl
  rw [if_neg hu] at hconverted ⊢
  by_cases hg : d.conversion = 'g'.toUInt8
  · rw [if_pos hg] at hconverted ⊢
    match args, hconverted with
    | .double shown :: rest, hconverted =>
      obtain ⟨rfl, rfl⟩ := Prod.mk.inj (Option.some.inj hconverted)
      rfl
  rw [if_neg hg] at hconverted ⊢
  obtain ⟨rfl, rfl⟩ := Prod.mk.inj (Option.some.inj hconverted)
  rfl

/-! ## The scanner -/

/-- The precision is scanned as the format has it. -/
theorem scanPrecision_eq (format : List UInt8) (args : List Arg) :
    scanPrecision (format ++ [0]) args =
      if (splitPrecision format).1 then
        takeInt args >>= fun taken ↦ .ok (unsignedOf taken.1, (splitPrecision format).2 ++ [0], taken.2)
      else .ok (2 ^ 32 - 1, (splitPrecision format).2 ++ [0], args) := by
  unfold scanPrecision splitPrecision
  match format with
  | [] => rfl
  | [c] =>
    simp only [List.singleton_append, peek, ok_bind, List.tail_cons]
    by_cases hdot : c = dot
    · rw [if_pos hdot, if_pos hdot]
      rfl
    · rw [if_neg hdot, if_neg hdot]
      rfl
  | c :: d :: format =>
    simp only [List.cons_append, peek, ok_bind, List.tail_cons]
    by_cases hdot : c = dot
    · rw [if_pos hdot, if_pos hdot]
      by_cases hstar : d = '*'.toUInt8
      · rw [if_pos hstar, if_pos hstar]
        rfl
      · rw [if_neg hstar, if_neg hstar]
        rfl
    · rw [if_neg hdot, if_neg hdot]
      rfl

/-- The precision of a directive, as a machine word. -/
theorem scanPrecision_directive {format : List UInt8} {d : Directive} {precision : Option ℤ}
    (hstarred : d.starred = (splitPrecision format).1) (hprecision : d.precision args = some (precision, left)) :
    scanPrecision (format ++ [0]) args = .ok (precisionWord precision, (splitPrecision format).2 ++ [0], left) ∧
      ∀ n ∈ precision, -2 ^ 31 ≤ n ∧ n < 2 ^ 31 := by
  rw [scanPrecision_eq, ← hstarred]
  unfold Directive.precision at hprecision
  by_cases hstar : d.starred = true
  · rw [if_pos hstar] at hprecision ⊢
    match args, hprecision with
    | .int n :: rest, hprecision =>
      obtain ⟨rfl, rfl⟩ := Prod.mk.inj (Option.some.inj hprecision)
      refine ⟨rfl, fun m hm ↦ ?_⟩
      obtain rfl := Option.some.inj hm
      exact ⟨n.le_toInt, n.toInt_lt⟩
  · rw [if_neg hstar] at hprecision ⊢
    obtain ⟨rfl, rfl⟩ := Prod.mk.inj (Option.some.inj hprecision)
    exact ⟨rfl, nofun⟩

/-- The scanner behind the precision. -/
def scanConversion (precision : ℕ) (format : List UInt8) (args : List Arg) (o : Output) :
    Scan (List UInt8 × List Arg × Output) := do
  let c ← peek format
  let wide : Bool := c = 'l'.toUInt8 ∨ c = 'z'.toUInt8
  let format := if wide then format.tail else format
  let conversion ← peek format
  let (args, o) ← convert conversion wide precision args o
  .ok (format.tail, args, o)

theorem scanConversion_eq (precision : ℕ) (format : List UInt8) (args : List Arg) (o : Output) :
    scanConversion precision (format ++ [0]) args o =
      match (splitWide format).2 with
      | [] => convert 0 (splitWide format).1 precision args o >>= fun converted ↦ .ok ([], converted)
      | conversion :: rest =>
        convert conversion (splitWide format).1 precision args o >>= fun converted ↦ .ok (rest ++ [0], converted) := by
  cases format with
  | nil => rfl
  | cons c format =>
    unfold scanConversion splitWide
    simp only [List.cons_append, peek, ok_bind, List.tail_cons]
    by_cases hwide : c = 'l'.toUInt8 ∨ c = 'z'.toUInt8
    · simp only [hwide, decide_true, if_true]
      cases format with
      | nil => rfl
      | cons conversion rest => rfl
    · simp only [hwide, decide_false, if_false, Bool.false_eq_true]
      rfl

/-- A directive emits its text. -/
theorem scanDirective_eq {format rest : List UInt8} {d : Directive} {precision : Option ℤ} {between : List Arg}
    (o : Output) (hsplit : splitDirective format = some (d, rest))
    (hprecision : d.precision args = some (precision, between))
    (hconverted : d.converted precision between = some (text, left)) (hshort : text.length < 2 ^ 31) :
    scanDirective (format ++ [0]) args o = .ok (rest ++ [0], left, emitAll o text) := by
  obtain ⟨hd, hrest⟩ : d = ⟨(splitPrecision format).1, (splitWide (splitPrecision format).2).1, d.conversion⟩ ∧
      (splitWide (splitPrecision format).2).2 = d.conversion :: rest := by
    unfold splitDirective at hsplit
    dsimp only at hsplit
    split at hsplit
    · cases hsplit
    · rename_i c passed hpassed
      obtain ⟨rfl, rfl⟩ := Prod.mk.inj (Option.some.inj hsplit)
      exact ⟨rfl, hpassed⟩
  have hstarred : d.starred = (splitPrecision format).1 := by rw [hd]
  have hwide : d.wide = (splitWide (splitPrecision format).2).1 := by rw [hd]
  obtain ⟨hscan, hrange⟩ := scanPrecision_directive hstarred hprecision
  change (scanPrecision (format ++ [0]) args >>= fun scanned ↦ scanConversion scanned.1 scanned.2.1 scanned.2.2 o) = _
  rw [hscan, ok_bind]
  dsimp only
  rw [scanConversion_eq, hrest, ← hwide]
  dsimp only
  rw [convert_eq o hrange hconverted hshort, ok_bind]

/-- What is left of the format behind a directive: without a conversion it is nothing, not even the terminator. -/
theorem scanDirective_rest {format : List UInt8} {result : List UInt8 × List Arg × Output}
    (hresult : scanDirective (format ++ [0]) args o = .ok result) :
    result.1 = (splitDirective format).elim [] fun split ↦ split.2 ++ [0] := by
  change (scanPrecision (format ++ [0]) args >>= fun scanned ↦ scanConversion scanned.1 scanned.2.1 scanned.2.2 o) = _
    at hresult
  obtain ⟨scanned, hscanned, hconversion⟩ := of_bind_ok hresult
  have hrest : scanned.2.1 = (splitPrecision format).2 ++ [0] := by
    rw [scanPrecision_eq] at hscanned
    by_cases hstarred : (splitPrecision format).1 = true
    · rw [if_pos hstarred] at hscanned
      obtain ⟨taken, -, htaken⟩ := of_bind_ok hscanned
      rw [← Except.ok.inj htaken]
    · rw [if_neg hstarred] at hscanned
      rw [← Except.ok.inj hscanned]
  rw [hrest, scanConversion_eq] at hconversion
  unfold splitDirective
  dsimp only
  cases hpassed : (splitWide (splitPrecision format).2).2 with
  | nil =>
    rw [hpassed] at hconversion
    obtain ⟨converted, -, hconverted⟩ := of_bind_ok hconversion
    rw [← Except.ok.inj hconverted]
    rfl
  | cons c rest =>
    rw [hpassed] at hconversion
    obtain ⟨converted, -, hconverted⟩ := of_bind_ok hconversion
    rw [← Except.ok.inj hconverted]
    rfl

/-- The parts of the expansion of a directive. -/
theorem expansion_directive {d : Directive} {ps : List Piece}
    (h : expansion (.directive d :: ps) args = some text) :
    ∃ precision between shown left rest, d.precision args = some (precision, between) ∧
      d.converted precision between = some (shown, left) ∧ expansion ps left = some rest ∧ text = shown ++ rest := by
  rw [expansion] at h
  obtain ⟨⟨precision, between⟩, hprecision, h⟩ := Option.bind_eq_some_iff.mp h
  obtain ⟨⟨shown, left⟩, hconverted, h⟩ := Option.bind_eq_some_iff.mp h
  obtain ⟨rest, hrest, h⟩ := Option.bind_eq_some_iff.mp h
  exact ⟨precision, between, shown, left, rest, hprecision, hconverted, hrest, (Option.some.inj h).symm⟩

theorem splitPrecision_suffix (format : List UInt8) : (splitPrecision format).2 <:+ format := by
  unfold splitPrecision
  split
  · exact List.suffix_refl _
  · split
    · exact List.nil_suffix
    · exact List.suffix_refl _
  · split
    · split
      · exact (List.suffix_cons _ _).trans (List.suffix_cons _ _)
      · exact List.suffix_cons _ _
    · exact List.suffix_refl _

theorem splitWide_suffix (format : List UInt8) : (splitWide format).2 <:+ format := by
  unfold splitWide
  split
  · exact List.suffix_refl _
  · split
    · exact List.suffix_cons _ _
    · exact List.suffix_refl _

theorem splitDirective_suffix {format rest : List UInt8} {d : Directive}
    (h : splitDirective format = some (d, rest)) : rest <:+ format := by
  unfold splitDirective at h
  dsimp only at h
  split at h
  · cases h
  · rename_i c passed hpassed
    obtain ⟨-, rfl⟩ := Prod.mk.inj (Option.some.inj h)
    have hcons : c :: passed <:+ format := hpassed ▸ (splitWide_suffix _).trans (splitPrecision_suffix _)
    exact (List.suffix_cons _ _).trans hcons

theorem scanFormat_char {format : List UInt8} (hzero : c ≠ 0) (hpercent : c ≠ percent) (rounds : ℕ) (args : List Arg)
    (o : Output) : scanFormat (rounds + 1) (c :: format) args o = scanFormat rounds format args (emit o c) := by
  rw [scanFormat, peek, ok_bind, if_neg hzero, if_pos hpercent, List.tail_cons]

theorem scanFormat_percent (format : List UInt8) (rounds : ℕ) (args : List Arg) (o : Output) :
    scanFormat (rounds + 1) (percent :: format) args o =
      scanDirective format args o >>= fun scanned ↦ scanFormat rounds scanned.1 scanned.2.1 scanned.2.2 := by
  rw [scanFormat, peek, ok_bind, if_neg (by decide), if_neg (by decide), List.tail_cons]

/-- A format that is complete is scanned to its end, and its expansion is emitted. -/
theorem scanFormat_eq (format : List UInt8) {ps : List Piece} (hpieces : pieces format = some ps)
    (hnonzero : ∀ c ∈ format, c ≠ 0) (hexpansion : expansion ps args = some text) (hshort : text.length < 2 ^ 31)
    (hrounds : format.length < rounds) (o : Output) :
    scanFormat rounds (format ++ [0]) args o = .ok (emitAll o text) := by
  fun_induction pieces format generalizing ps args text rounds o with
  | case1 =>
    obtain rfl := Option.some.inj hpieces
    obtain rfl := Option.some.inj hexpansion
    cases rounds with
    | zero => exact absurd hrounds (Nat.not_lt_zero _)
    | succ rounds => rfl
  | case2 => cases hpieces
  | case3 format d rest hsplit ih =>
    obtain ⟨qs, hqs, rfl⟩ := Option.map_eq_some_iff.mp hpieces
    obtain ⟨precision, between, shown, left, tail, hprecision, hconverted, htail, rfl⟩ := expansion_directive hexpansion
    rw [List.length_append] at hshort
    have hlt := length_splitDirective_lt hsplit
    have hsuffix := splitDirective_suffix hsplit
    rw [List.length_cons] at hrounds
    cases rounds with
    | zero => exact absurd hrounds (Nat.not_lt_zero _)
    | succ rounds =>
      rw [List.cons_append, scanFormat_percent, scanDirective_eq o hsplit hprecision hconverted (by omega), ok_bind,
        ih hqs (fun c hc ↦ hnonzero c (List.mem_cons_of_mem _ (hsuffix.subset hc))) htail (by omega) (by omega),
        emitAll_append]
  | case4 c format hpercent ih =>
    obtain ⟨qs, hqs, rfl⟩ := Option.map_eq_some_iff.mp hpieces
    obtain ⟨tail, htail, rfl⟩ := Option.map_eq_some_iff.mp hexpansion
    rw [List.length_cons] at hshort hrounds
    cases rounds with
    | zero => exact absurd hrounds (Nat.not_lt_zero _)
    | succ rounds =>
      rw [List.cons_append, scanFormat_char (hnonzero c List.mem_cons_self) hpercent,
        ih hqs (fun d hd ↦ hnonzero d (List.mem_cons_of_mem _ hd)) htail (by omega) (by omega)]
      rfl

/-- Nothing can be read behind the format. -/
theorem scanFormat_nil (rounds : ℕ) (args : List Arg) (o : Output) : scanFormat rounds [] args o = fault := by
  cases rounds <;> rfl

/-- A format that is not complete is read past its end. -/
theorem scanFormat_incomplete (format : List UInt8) (hpieces : pieces format = none) (hnonzero : ∀ c ∈ format, c ≠ 0)
    (rounds : ℕ) (args : List Arg) (o result : Output) : scanFormat rounds (format ++ [0]) args o ≠ .ok result := by
  cases rounds with
  | zero => exact nofun
  | succ rounds =>
    fun_induction pieces format generalizing args rounds o with
    | case1 => cases hpieces
    | case2 format hsplit =>
      intro hresult
      rw [List.cons_append, scanFormat_percent] at hresult
      obtain ⟨scanned, hscanned, hrest⟩ := of_bind_ok hresult
      rw [scanDirective_rest hscanned, hsplit, Option.elim_none, scanFormat_nil] at hrest
      cases hrest
    | case3 format d rest hsplit ih =>
      intro hresult
      rw [List.cons_append, scanFormat_percent] at hresult
      obtain ⟨scanned, hscanned, hrest⟩ := of_bind_ok hresult
      rw [scanDirective_rest hscanned, hsplit, Option.elim_some] at hrest
      cases rounds with
      | zero => cases hrest
      | succ rounds =>
        have hsuffix := splitDirective_suffix hsplit
        exact ih (Option.map_eq_none_iff.mp hpieces)
          (fun c hc ↦ hnonzero c (List.mem_cons_of_mem _ (hsuffix.subset hc))) _ _ rounds hrest
    | case4 c format hpercent ih =>
      intro hresult
      rw [List.cons_append, scanFormat_char (hnonzero c List.mem_cons_self) hpercent] at hresult
      cases rounds with
      | zero => cases hresult
      | succ rounds =>
        exact ih (Option.map_eq_none_iff.mp hpieces) (fun d hd ↦ hnonzero d (List.mem_cons_of_mem _ hd)) _ _ rounds
          hresult

/-! ## The whole call -/

/-- A call reads no more than its format and writes no more than its buffer: the expansion, as far as there is room for
it and a terminator.  Its result is the length of the whole expansion. -/
def Formats (buffer : Memory) (size : ℕ) (format : CString) (args : List Arg) : Prop :=
  ∃ n data, vsnprintf buffer size format.buffer args = .ok (n, data) ∧ (∀ i ≥ size, data i = buffer i) ∧
    ∀ ps text, pieces format.bytes = some ps → expansion ps args = some text → n = text.length ∧
      (0 < size → data.bytes (min text.length (size - 1)) = text.take (size - 1) ∧
        data (min text.length (size - 1)) = 0)

/-- The format is complete, and an `int` can count its expansion. -/
def Fits (format : CString) (args : List Arg) : Prop :=
  ∃ ps, pieces format.bytes = some ps ∧ ∀ text, expansion ps args = some text → text.length < 2 ^ 31

/-- Each conversion of a complete format has its argument. -/
def Supplies (format : CString) (args : List Arg) : Prop :=
  ∀ ps, pieces format.bytes = some ps → (expansion ps args).isSome = true

theorem CString.length_lt_buffer (format : CString) : format.bytes.length < format.buffer.length := by
  rw [CString.buffer, List.length_append]
  exact Nat.lt_succ_self _

/-- The expansion in the buffer, with its terminator. -/
theorem Output.Shows.terminate (h : o.Shows buffer size text) (hpos : 0 < size) {data : Memory}
    (hdata : data = o.data.set (min text.length (size - 1)) 0) :
    (∀ i ≥ size, data i = buffer i) ∧ data.bytes (min text.length (size - 1)) = text.take (size - 1) ∧
      data (min text.length (size - 1)) = 0 := by
  subst hdata
  refine ⟨fun i hi ↦ ?_, ?_, Memory.set_self _ _ _⟩
  · rw [Memory.set_of_ne _ _ (by omega), h.data, if_neg (by omega)]
  · refine List.ext_getElem (by rw [Memory.length_bytes, List.length_take, Nat.min_comm]) fun i hi _ ↦ ?_
    rw [Memory.length_bytes] at hi
    have hroom : i + 1 < size ∧ i < text.length := by omega
    simp only [Memory.bytes, List.getElem_map, List.getElem_range, List.getElem_take]
    rw [Memory.set_of_ne _ _ (by omega), h.data, if_pos hroom, List.getD_eq_getElem _ _ hroom.2]

/-- The call does so exactly if the format is complete and its expansion is short enough. -/
theorem vsnprintf_formats_iff (buffer : Memory) (size : ℕ) (format : CString) (args : List Arg)
    (hargs : Supplies format args) : Formats buffer size format args ↔ Fits format args := by
  unfold Formats Fits vsnprintf
  constructor
  · rintro ⟨n, data, hcall, -, hexpands⟩
    obtain ⟨o, hscan, hreturn⟩ := of_bind_ok hcall
    cases hpieces : pieces format.bytes with
    | none => exact absurd hscan (scanFormat_incomplete format.bytes hpieces format.nonzero _ _ _ _)
    | some ps =>
      refine ⟨ps, rfl, fun text htext ↦ ?_⟩
      obtain ⟨hn, -⟩ := Prod.mk.inj (Except.ok.inj hreturn)
      have hlength := (hexpands ps text hpieces htext).1
      rw [Int.bmod_def] at hn
      omega
  · rintro ⟨ps, hpieces, hshort⟩
    obtain ⟨text, htext⟩ := Option.isSome_iff_exists.mp (hargs ps hpieces)
    have hshort := hshort text htext
    have hscan := scanFormat_eq format.bytes hpieces format.nonzero htext hshort (CString.length_lt_buffer format)
      ⟨buffer, size, 0⟩
    have hfits : ([] ++ text).length < 2 ^ 64 := by
      rw [List.nil_append]
      omega
    have hshows := (Output.Shows.start buffer size).emitAll hfits
    rw [List.nil_append] at hshows
    have hused : Int.bmod (emitAll ⟨buffer, size, 0⟩ text).used (2 ^ 32) = text.length := by
      rw [hshows.used, Int.bmod_def]
      omega
    have hcut : (if text.length < size then text.length else size - 1) = min text.length (size - 1) := by
      split <;> omega
    change scanFormat format.buffer.length format.buffer args _ = _ at hscan
    rw [hscan, ok_bind]
    dsimp only
    refine ⟨text.length, _, by rw [hused], ?_⟩
    rw [hshows.used, hcut]
    by_cases hsize : size = 0
    · rw [if_neg (not_not.mpr hsize)]
      refine ⟨fun i _ ↦ (hshows.data i).trans (if_neg (by omega)), fun ps' text' hps htext' ↦ ?_⟩
      obtain rfl : ps = ps' := Option.some.inj (hpieces.symm.trans hps)
      obtain rfl : text = text' := Option.some.inj (htext.symm.trans htext')
      exact ⟨rfl, fun hpos ↦ absurd hsize hpos.ne'⟩
    · obtain ⟨houtside, hinside⟩ := hshows.terminate (Nat.pos_of_ne_zero hsize) rfl
      rw [if_pos hsize]
      refine ⟨houtside, fun ps' text' hps htext' ↦ ?_⟩
      obtain rfl : ps = ps' := Option.some.inj (hpieces.symm.trans hps)
      obtain rfl : text = text' := Option.some.inj (htext.symm.trans htext')
      exact ⟨rfl, fun _ ↦ hinside⟩

/-! ### A string in a buffer that is too small, and a lone percent sign -/

def stringFormat : CString := ⟨bytesOf "%s", by decide⟩

def hello : CString := ⟨bytesOf "hello", by decide⟩

theorem pieces_stringFormat : pieces stringFormat.bytes = some [.directive ⟨false, false, 's'.toUInt8⟩] := by
  have hsplit : splitDirective [115] = some (⟨false, false, 's'.toUInt8⟩, []) := rfl
  change pieces (percent :: [115]) = _
  rw [pieces_percent, hsplit, Option.bind_some, pieces_nil]
  rfl

/-- `hello` in three bytes. -/
theorem vsnprintf_formats_hello : Formats Memory.zero 3 stringFormat [.string (some hello)] := by
  refine (vsnprintf_formats_iff Memory.zero 3 stringFormat [.string (some hello)] fun ps hps ↦ ?_).mpr
    ⟨_, pieces_stringFormat, fun text htext ↦ ?_⟩
  · obtain rfl := Option.some.inj (pieces_stringFormat.symm.trans hps)
    rfl
  · obtain rfl : bytesOf "hello" = text := Option.some.inj htext
    decide

def percentFormat : CString := ⟨[percent], by decide⟩

theorem pieces_percentFormat : pieces percentFormat.bytes = none := by
  have hsplit : splitDirective [] = none := rfl
  change pieces (percent :: []) = _
  rw [pieces_percent, hsplit, Option.bind_none]

/-- The format `%` needs no argument, and is read past its end. -/
theorem vsnprintf_percent :
    Supplies percentFormat [] ∧ vsnprintf Memory.zero 8 percentFormat.buffer [] = .error .fault ∧
      ¬ Formats Memory.zero 8 percentFormat [] := by
  have hfault : vsnprintf Memory.zero 8 percentFormat.buffer [] = .error .fault := rfl
  refine ⟨fun ps hps ↦ ?_, hfault, ?_⟩
  · rw [pieces_percentFormat] at hps
    cases hps
  · rintro ⟨n, data, hcall, -⟩
    rw [hfault] at hcall
    cases hcall

end JordyOS.Ape
