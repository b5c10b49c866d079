import JordyOS.Machine.Decimal
import JordyOS.Machine.Scan
import JordyOS.Net.Prefix

/-!
# Numbers and prefixes in text

`net_number` and `net_cidr`, which the firewall commands read their operands with.  Both accept exactly
the strings of a grammar, and touch nothing but the string and a buffer of four bytes.
-/

namespace JordyOS.Net

open Machine

/-! ## The code -/

/-- The loop of `net_number` from the pointer on. -/
def netNumberLoop (maximum : UInt32) : (n : UInt32) → (text : List UInt8) → Scan UInt32
  | _, [] => fault
  | n, c :: text =>
    if c = 0 then .ok n
    else if c < 48 ∨ c > 57 then reject
    else
      let digit := (c - 48).toUInt32
      if digit > maximum ∨ n > (maximum - digit) / 10 then reject
      else netNumberLoop maximum (n * 10 + digit) text

def netNumber (text : List UInt8) (maximum : UInt32) : Scan UInt32 := do
  let c ← peek text
  if c = 0 then reject else netNumberLoop maximum 0 text

/-- The digits of an octet are moved into `part`, of which `n` bytes are in use. -/
def partLoop : (part : List UInt8) → (n : ℕ) → (text : List UInt8) → Scan (List UInt8 × ℕ × List UInt8)
  | _, _, [] => fault
  | part, n, c :: text =>
    if c ≥ 48 ∧ c ≤ 57 then
      if n = 3 then reject
      else do
        let part ← poke part n c
        partLoop part (n + 1) text
    else .ok (part, n, c :: text)

/-- One round of the loop over the octets, up to the dot. -/
def cidrOctet (part : List UInt8) (ip : UInt32) (text : List UInt8) : Scan (UInt32 × List UInt8) := do
  let (part, n, text) ← partLoop part 0 text
  let part ← poke part n 0
  let value ← netNumber part 255
  .ok (ip <<< 8 ||| value, text)

/-- The rounds that are left; `stack` is what the buffer of each round holds before it is used. -/
def cidrOctets (stack : ℕ → Fin 4 → UInt8) :
    (left : ℕ) → (ip : UInt32) → (text : List UInt8) → Scan (UInt32 × List UInt8)
  | 0, ip, text => .ok (ip, text)
  | left + 1, ip, text => do
    let (ip, text) ← cidrOctet (List.ofFn (stack left)) ip text
    if left = 0 then .ok (ip, text)
    else
      let c ← peek text
      if c ≠ dot then reject else cidrOctets stack left ip text.tail

/-- The address and the mask. -/
def netCidr (stack : ℕ → Fin 4 → UInt8) (text : List UInt8) : Scan (UInt32 × UInt32) := do
  let (ip, text) ← cidrOctets stack 4 0 text
  let c ← peek text
  let bits ← (if c = slash then netNumber text.tail 32 else if c ≠ 0 then reject else .ok 32)
  let mask := if bits ≠ 0 then (0xffffffff : UInt32) <<< (32 - bits) else 0
  .ok (ip &&& mask, mask)

/-! ## Numbers -/

variable {text rest digits : List UInt8} {maximum n : UInt32} {c : UInt8}

theorem not_isDigit_iff : (c < 48 ∨ c > 57) ↔ ¬ IsDigit c := by
  have hlow : (48 : UInt8).toNat = 48 := rfl
  have hhigh : (57 : UInt8).toNat = 57 := rfl
  unfold IsDigit
  rw [gt_iff_lt, UInt8.lt_iff_toNat_lt, UInt8.lt_iff_toNat_lt, hlow, hhigh]
  omega

/-- The test before a digit is added says whether the value stays below the maximum. -/
theorem exceeds_iff (maximum n digit : UInt32) :
    (digit > maximum ∨ n > (maximum - digit) / 10) ↔ maximum.toNat < n.toNat * 10 + digit.toNat := by
  by_cases hdigit : digit > maximum
  · have hlt : maximum.toNat < digit.toNat := UInt32.lt_iff_toNat_lt.mp hdigit
    exact iff_of_true (Or.inl hdigit) (by omega)
  · have hle : digit.toNat ≤ maximum.toNat := by
      rw [gt_iff_lt, UInt32.lt_iff_toNat_lt] at hdigit
      omega
    have hten : (10 : UInt32).toNat = 10 := rfl
    rw [or_iff_right hdigit, gt_iff_lt, UInt32.lt_iff_toNat_lt, UInt32.toNat_div, hten,
      UInt32.toNat_sub_of_le _ _ (UInt32.le_iff_toNat_le.mpr hle)]
    omega

/-- The loop reads up to the terminator and rejects what is no digit or too large. -/
theorem netNumberLoop_eq (hdigits : ∀ c ∈ digits, c ≠ 0) (rest : List UInt8) (hn : n ≤ maximum) :
    netNumberLoop maximum n (digits ++ 0 :: rest) =
      if (∀ c ∈ digits, IsDigit c) ∧ decimalFrom n.toNat digits ≤ maximum.toNat
      then .ok (UInt32.ofNat (decimalFrom n.toNat digits)) else reject := by
  induction digits generalizing n with
  | nil =>
    have hle : decimalFrom n.toNat [] ≤ maximum.toNat := UInt32.le_iff_toNat_le.mp hn
    rw [if_pos ⟨nofun, hle⟩, decimalFrom_nil, UInt32.ofNat_toNat]
    rfl
  | cons c digits ih =>
    have hc : c ≠ 0 := hdigits c List.mem_cons_self
    rw [List.cons_append, netNumberLoop, if_neg hc]
    by_cases hdigit : IsDigit c
    · have hexceeds := exceeds_iff maximum n (c - 48).toUInt32
      rw [hdigit.toNat_sub] at hexceeds
      rw [if_neg (mt not_isDigit_iff.mp (not_not.mpr hdigit)), decimalFrom_cons]
      dsimp only
      by_cases hlarge : maximum.toNat < n.toNat * 10 + (c.toNat - 48)
      · have hfinal := le_decimalFrom (n.toNat * 10 + (c.toNat - 48)) digits
        rw [if_pos (hexceeds.mpr hlarge),
          if_neg fun h ↦ absurd (hfinal.trans h.2) (Nat.not_le.mpr hlarge)]
      · have hword := maximum.toNat_lt
        have hnext : (n * 10 + (c - 48).toUInt32).toNat = n.toNat * 10 + (c.toNat - 48) := by
          have hten : (10 : UInt32).toNat = 10 := rfl
          rw [UInt32.toNat_add, UInt32.toNat_mul, hdigit.toNat_sub, hten]
          omega
        rw [if_neg (mt hexceeds.mp hlarge), ih (fun x hx ↦ hdigits x (List.mem_cons_of_mem c hx))
          (UInt32.le_iff_toNat_le.mpr (by omega)), hnext]
        simp only [List.mem_cons, forall_eq_or_imp, and_iff_right hdigit]
    · rw [if_pos (not_isDigit_iff.mpr hdigit), if_neg fun h ↦ hdigit (h.1 c List.mem_cons_self)]

/-- `net_number` accepts the non-empty strings of digits up to the maximum. -/
theorem netNumber_eq (hdigits : ∀ c ∈ digits, c ≠ 0) (rest : List UInt8) (maximum : UInt32) :
    netNumber (digits ++ 0 :: rest) maximum =
      if digits ≠ [] ∧ (∀ c ∈ digits, IsDigit c) ∧ decimalValue digits ≤ maximum.toNat
      then .ok (UInt32.ofNat (decimalValue digits)) else reject := by
  cases digits with
  | nil => rfl
  | cons c digits =>
    have hc : c ≠ 0 := hdigits c List.mem_cons_self
    have hloop := netNumberLoop_eq hdigits rest (UInt32.zero_le : 0 ≤ maximum)
    change (if c = 0 then reject else netNumberLoop maximum 0 (c :: digits ++ 0 :: rest)) = _
    rw [if_neg hc, hloop]
    simp only [ne_eq, reduceCtorEq, not_false_eq_true, true_and]
    rfl

/-! ## Octets -/

/-- A group of digits that is read as an octet. -/
structure Octet (group : List UInt8) : Prop where
  digits : ∀ c ∈ group, IsDigit c
  nonempty : group ≠ []
  short : group.length ≤ 3
  small : decimalValue group ≤ 255

instance (group : List UInt8) : Decidable (Octet group) :=
  decidable_of_iff ((∀ c ∈ group, IsDigit c) ∧ group ≠ [] ∧ group.length ≤ 3 ∧ decimalValue group ≤ 255)
    ⟨fun h ↦ ⟨h.1, h.2.1, h.2.2.1, h.2.2.2⟩, fun h ↦ ⟨h.digits, h.nonempty, h.short, h.small⟩⟩

variable {group part : List UInt8} {groups : List (List UInt8)} {ip : UInt32} {k left : ℕ}

/-- A string up to its first byte that is no digit. -/
theorem exists_digits (h : Terminated text) : ∃ group c rest, text = group ++ c :: rest ∧
    (∀ x ∈ group, IsDigit x) ∧ ¬ IsDigit c ∧ Terminated (c :: rest) := by
  induction text with
  | nil => exact absurd rfl h.ne_nil
  | cons c text ih =>
    by_cases hc : IsDigit c
    · obtain ⟨group, d, rest, rfl, hgroup, hd, hrest⟩ := ih (h.of_cons hc.ne_zero)
      refine ⟨c :: group, d, rest, rfl, ?_, hd, hrest⟩
      exact List.forall_mem_cons.mpr ⟨hc, hgroup⟩
    · exact ⟨[], c, text, rfl, nofun, hc, h⟩

/-- The loop fills the buffer with the digits and stops before it overruns. -/
theorem partLoop_eq (hgroup : ∀ x ∈ group, IsDigit x) (hc : ¬ IsDigit c) (rest : List UInt8)
    (hpart : part.length = 4) (hk : k ≤ 3) : partLoop part k (group ++ c :: rest) =
      if k + group.length ≤ 3
      then .ok (part.take k ++ group ++ part.drop (k + group.length), k + group.length, c :: rest)
      else reject := by
  induction group generalizing part k with
  | nil =>
    have hstop : ¬ (c ≥ 48 ∧ c ≤ 57) := hc
    rw [List.nil_append, partLoop, if_neg hstop, List.length_nil, Nat.add_zero, if_pos hk, List.append_nil,
      List.take_append_drop]
  | cons x group ih =>
    have hx : x ≥ 48 ∧ x ≤ 57 := hgroup x List.mem_cons_self
    rw [List.cons_append, partLoop, if_pos hx, List.length_cons]
    by_cases hfull : k = 3
    · rw [if_pos hfull, if_neg (by omega)]
    · have hin : k < part.length := by omega
      have hset : (part.set k x).take (k + 1) = part.take k ++ [x] := by
        rw [List.take_succ_eq_append_getElem (by rwa [List.length_set]), List.getElem_set_self,
          List.take_set_of_le (Nat.le_refl k)]
      rw [if_neg hfull, poke, if_pos hin]
      change partLoop (part.set k x) (k + 1) (group ++ c :: rest) = _
      rw [ih (fun y hy ↦ hgroup y (List.mem_cons_of_mem x hy)) (by rwa [List.length_set]) (by omega), hset,
        List.drop_set_of_lt (by omega), Nat.add_assoc, Nat.add_comm 1, List.append_assoc _ [x],
        List.singleton_append]

/-- A round reads the digits up to the next other byte, and accepts them when they are an octet. -/
theorem cidrOctet_eq (hgroup : ∀ x ∈ group, IsDigit x) (hc : ¬ IsDigit c) (rest : List UInt8)
    (hpart : part.length = 4) (ip : UInt32) : cidrOctet part ip (group ++ c :: rest) =
      if Octet group then .ok (ip <<< 8 ||| UInt32.ofNat (decimalValue group), c :: rest) else reject := by
  unfold cidrOctet
  rw [partLoop_eq hgroup hc rest hpart (Nat.zero_le 3), Nat.zero_add, List.take_zero, List.nil_append]
  by_cases hshort : group.length ≤ 3
  · have hroom : group.length < (group ++ part.drop group.length).length := by
      rw [List.length_append, List.length_drop]
      omega
    have hterminated : (group ++ part.drop group.length).set group.length 0 =
        group ++ 0 :: part.drop (group.length + 1) := by
      rw [List.set_append_right _ _ (Nat.le_refl _), Nat.sub_self,
        List.drop_eq_getElem_cons (by omega : group.length < part.length), List.set_cons_zero]
    have hmaximum : (255 : UInt32).toNat = 255 := rfl
    rw [if_pos hshort]
    change (poke (group ++ part.drop group.length) group.length 0 >>= fun part ↦
      netNumber part 255 >>= fun value ↦ .ok (ip <<< 8 ||| value, c :: rest)) = _
    rw [poke, if_pos hroom, hterminated]
    change (netNumber (group ++ 0 :: part.drop (group.length + 1)) 255 >>= fun value ↦
      .ok (ip <<< 8 ||| value, c :: rest)) = _
    rw [netNumber_eq fun x hx ↦ (hgroup x hx).ne_zero, hmaximum]
    by_cases hoctet : Octet group
    · rw [if_pos ⟨hoctet.nonempty, hgroup, hoctet.small⟩, if_pos hoctet]
      rfl
    · rw [if_neg fun h ↦ hoctet ⟨hgroup, h.1, hshort, h.2.2⟩, if_neg hoctet]
      rfl
  · rw [if_neg hshort, if_neg fun hoctet ↦ hshort hoctet.short]
    rfl

/-! ## Addresses -/

/-- Groups with dots between them. -/
def dotted : List (List UInt8) → List UInt8
  | [] => []
  | [group] => group
  | group :: next :: groups => group ++ dot :: dotted (next :: groups)

/-- The number the octets continue. -/
def octetsFrom (ip : UInt32) (groups : List (List UInt8)) : UInt32 :=
  groups.foldl (fun ip group ↦ ip <<< 8 ||| UInt32.ofNat (decimalValue group)) ip

variable (stack : ℕ → Fin 4 → UInt8)

theorem not_isDigit_dot : ¬ IsDigit dot := by decide

/-- As many octets as rounds are read. -/
theorem cidrOctets_eq (hlength : groups.length = left + 1) (hgroups : ∀ g ∈ groups, Octet g)
    (hc : ¬ IsDigit c) (rest : List UInt8) (ip : UInt32) :
    cidrOctets stack (left + 1) ip (dotted groups ++ c :: rest) = .ok (octetsFrom ip groups, c :: rest) := by
  induction groups generalizing left ip with
  | nil => cases hlength
  | cons group groups ih =>
    obtain ⟨hoctet, hmore⟩ := List.forall_mem_cons.mp hgroups
    have hround := fun (d : UInt8) (hd : ¬ IsDigit d) (rest : List UInt8) ↦
      cidrOctet_eq hoctet.digits hd rest (List.length_ofFn : (List.ofFn (stack left)).length = 4) ip
    cases groups with
    | nil =>
      obtain rfl : left = 0 := (Nat.succ.inj hlength).symm
      rw [cidrOctets, dotted, hround c hc rest, if_pos hoctet]
      rfl
    | cons next groups =>
      obtain ⟨left, rfl⟩ : ∃ n, left = n + 1 := ⟨groups.length, (Nat.succ.inj hlength).symm⟩
      rw [cidrOctets, dotted, List.append_assoc, List.cons_append, hround dot not_isDigit_dot, if_pos hoctet]
      change cidrOctets stack (left + 1) (ip <<< 8 ||| UInt32.ofNat (decimalValue group))
        (dotted (next :: groups) ++ c :: rest) = _
      rw [ih (Nat.succ.inj hlength) hmore]
      rfl

/-- A string of another shape is rejected, before its end is passed. -/
theorem cidrOctets_cases (h : Terminated text) (left : ℕ) (ip : UInt32) :
    cidrOctets stack (left + 1) ip text = reject ∨
    ∃ groups c rest, groups.length = left + 1 ∧ (∀ g ∈ groups, Octet g) ∧ ¬ IsDigit c ∧
      Terminated (c :: rest) ∧ text = dotted groups ++ c :: rest := by
  induction left generalizing text ip with
  | zero =>
    obtain ⟨group, c, rest, rfl, hgroup, hc, hrest⟩ := exists_digits h
    by_cases hoctet : Octet group
    · refine Or.inr ⟨[group], c, rest, rfl, ?_, hc, hrest, rfl⟩
      exact List.forall_mem_singleton.mpr hoctet
    · left
      rw [cidrOctets, cidrOctet_eq hgroup hc rest List.length_ofFn, if_neg hoctet]
      rfl
  | succ left ih =>
    obtain ⟨group, c, rest, rfl, hgroup, hc, hrest⟩ := exists_digits h
    rw [cidrOctets, cidrOctet_eq hgroup hc rest List.length_ofFn]
    by_cases hoctet : Octet group
    · rw [if_pos hoctet]
      change (if c ≠ dot then reject else cidrOctets stack (left + 1) _ rest) = reject ∨ _
      by_cases hdot : c = dot
      · rw [hdot] at hrest
        rw [if_neg (not_not.mpr hdot), hdot]
        rcases ih (hrest.of_cons (by decide)) (ip <<< 8 ||| UInt32.ofNat (decimalValue group)) with
          hreject | ⟨groups, d, tail, hlength, hgroups, hd, htail, rfl⟩
        · exact Or.inl hreject
        · obtain ⟨next, groups, rfl⟩ := List.exists_cons_of_length_eq_add_one hlength
          refine Or.inr ⟨group :: next :: groups, d, tail, congrArg (· + 1) hlength, ?_, hd, htail, ?_⟩
          · exact List.forall_mem_cons.mpr ⟨hoctet, hgroups⟩
          · rw [dotted, List.append_assoc, List.cons_append]
      · exact Or.inl (if_pos hdot)
    · rw [if_neg hoctet]
      exact Or.inl rfl

/-- One more octet behind a number of three. -/
theorem toNat_shiftIn {ip : UInt32} {value : ℕ} (hip : ip.toNat < 2 ^ 24) (hvalue : value ≤ 255) :
    (ip <<< 8 ||| UInt32.ofNat value).toNat = ip.toNat * 256 + value := by
  have hshift : ip.toNat <<< 8 < 2 ^ 32 := by
    rw [Nat.shiftLeft_eq]
    omega
  have height : (8 : UInt32).toNat % 32 = 8 := rfl
  rw [UInt32.toNat_or, UInt32.toNat_shiftLeft, height, Nat.mod_eq_of_lt hshift, UInt32.toNat_ofNat',
    Nat.mod_eq_of_lt (by omega), ← Nat.shiftLeft_add_eq_or_of_lt (by omega), Nat.shiftLeft_eq]

/-- The address with these octets, the first one in the highest byte. -/
def address (a b c d : ℕ) : UInt32 := UInt32.ofNat (((a * 256 + b) * 256 + c) * 256 + d)

theorem octetsFrom_eq_address {a b c d : List UInt8} (ha : Octet a) (hb : Octet b) (hc : Octet c)
    (hd : Octet d) : octetsFrom 0 [a, b, c, d] =
      address (decimalValue a) (decimalValue b) (decimalValue c) (decimalValue d) := by
  have hasmall := ha.small
  have hbsmall := hb.small
  have hcsmall := hc.small
  have hdsmall := hd.small
  have hfirst := toNat_shiftIn (by decide : (0 : UInt32).toNat < 2 ^ 24) hasmall
  rw [UInt32.toNat_zero, Nat.zero_mul, Nat.zero_add] at hfirst
  have hsecond := toNat_shiftIn (hfirst.trans_lt (by omega)) hbsmall
  rw [hfirst] at hsecond
  have hthird := toNat_shiftIn (hsecond.trans_lt (by omega)) hcsmall
  rw [hsecond] at hthird
  have hfourth := toNat_shiftIn (hthird.trans_lt (by omega)) hdsmall
  rw [hthird] at hfourth
  rw [← UInt32.toNat_inj, address, UInt32.toNat_ofNat', Nat.mod_eq_of_lt (by omega)]
  exact hfourth

theorem shiftedMask_eq {n : ℕ} (hn : n ≤ 32) :
    (if UInt32.ofNat n ≠ 0 then (0xffffffff : UInt32) <<< (32 - UInt32.ofNat n) else 0) = prefixMask n := by
  have hall : ∀ n : Fin 33, (if UInt32.ofNat n ≠ 0 then (0xffffffff : UInt32) <<< (32 - UInt32.ofNat n)
    else 0) = prefixMask n := by decide
  exact hall ⟨n, Nat.lt_succ_of_le hn⟩

/-! ## The grammar -/

/-- What may follow the address, and the number of leading bits it leaves. -/
inductive PrefixLength : List UInt8 → ℕ → Prop
  | absent : PrefixLength [] 32
  | given {digits : List UInt8} (hdigits : ∀ c ∈ digits, IsDigit c) (hnonempty : digits ≠ [])
      (hsmall : decimalValue digits ≤ 32) : PrefixLength (slash :: digits) (decimalValue digits)

/-- The text is a prefix with this address and this number of leading bits. -/
inductive CidrText : List UInt8 → UInt32 → ℕ → Prop
  | mk {a b c d tail : List UInt8} {bits : ℕ} (ha : Octet a) (hb : Octet b) (hc : Octet c) (hd : Octet d)
      (htail : PrefixLength tail bits) :
      CidrText (a ++ dot :: (b ++ dot :: (c ++ dot :: (d ++ tail))))
        (address (decimalValue a) (decimalValue b) (decimalValue c) (decimalValue d)) bits

theorem PrefixLength.le {tail : List UInt8} {bits : ℕ} (h : PrefixLength tail bits) : bits ≤ 32 := by
  cases h with
  | absent => exact Nat.le_refl 32
  | given hdigits hnonempty hsmall => exact hsmall

/-- The part of `net_cidr` behind the octets. -/
def cidrTail (ip : UInt32) (text : List UInt8) : Scan (UInt32 × UInt32) := do
  let c ← peek text
  let bits ← (if c = slash then netNumber text.tail 32 else if c ≠ 0 then reject else .ok 32)
  let mask := if bits ≠ 0 then (0xffffffff : UInt32) <<< (32 - bits) else 0
  .ok (ip &&& mask, mask)

theorem cidrTail_of_prefixLength {tail : List UInt8} {bits : ℕ} (h : PrefixLength tail bits) (ip : UInt32) :
    cidrTail ip (tail ++ [0]) = .ok (ip &&& prefixMask bits, prefixMask bits) := by
  cases h with
  | absent => rfl
  | @given digits hdigits hnonempty hsmall =>
    have hmaximum : (32 : UInt32).toNat = 32 := rfl
    change (netNumber (digits ++ [0]) 32 >>= fun bits ↦ .ok
      (ip &&& (if bits ≠ 0 then (0xffffffff : UInt32) <<< (32 - bits) else 0),
        if bits ≠ 0 then (0xffffffff : UInt32) <<< (32 - bits) else 0)) = _
    rw [netNumber_eq (fun x hx ↦ (hdigits x hx).ne_zero) [], hmaximum,
      if_pos ⟨hnonempty, hdigits, hsmall⟩, ← shiftedMask_eq hsmall]
    rfl

theorem cidrTail_cases (h : Terminated text) (ip : UInt32) :
    cidrTail ip text = reject ∨ ∃ tail bits, PrefixLength tail bits ∧ text = tail ++ [0] := by
  cases text with
  | nil => exact absurd rfl h.ne_nil
  | cons c text =>
    by_cases hslash : c = slash
    · rw [hslash] at h ⊢
      obtain ⟨⟨digits, hnonzero⟩, rfl⟩ := h.of_cons (by decide)
      have hmaximum : (32 : UInt32).toNat = 32 := rfl
      by_cases hgiven : digits ≠ [] ∧ (∀ c ∈ digits, IsDigit c) ∧ decimalValue digits ≤ 32
      · exact Or.inr ⟨slash :: digits, _, .given hgiven.2.1 hgiven.1 hgiven.2.2, rfl⟩
      · left
        change (netNumber (digits ++ [0]) 32 >>= _) = _
        rw [netNumber_eq hnonzero [], hmaximum, if_neg hgiven]
        rfl
    · by_cases hzero : c = 0
      · rw [hzero] at h ⊢
        exact Or.inr ⟨[], 32, .absent, by rw [h.of_zero]; rfl⟩
      · left
        change (if c = slash then netNumber text 32 else if c ≠ 0 then reject else .ok 32) >>= _ = _
        rw [if_neg hslash, if_pos hzero]
        rfl

theorem PrefixLength.head {tail : List UInt8} {bits : ℕ} (h : PrefixLength tail bits) :
    ∃ c rest, ¬ IsDigit c ∧ tail ++ [0] = c :: rest := by
  cases h with
  | absent => exact ⟨0, [], by decide, rfl⟩
  | given hdigits hnonempty hsmall => exact ⟨slash, _, by decide, rfl⟩

/-- A prefix is read as its address without the host bits and its mask. -/
theorem netCidr_of_cidrText {bytes : List UInt8} {ip : UInt32} {bits : ℕ} (h : CidrText bytes ip bits) :
    netCidr stack (bytes ++ [0]) = .ok (ip &&& prefixMask bits, prefixMask bits) := by
  obtain @⟨a, b, c, d, tail, bits, ha, hb, hc, hd, htail⟩ := h
  obtain ⟨e, rest, he, hrest⟩ := htail.head
  have hgroups : ∀ g ∈ [a, b, c, d], Octet g := by
    simp only [List.mem_cons, List.not_mem_nil, or_false]
    rintro g (rfl | rfl | rfl | rfl) <;> assumption
  have htext : a ++ dot :: (b ++ dot :: (c ++ dot :: (d ++ tail))) ++ [0] = dotted [a, b, c, d] ++ e :: rest := by
    rw [← hrest]
    simp [dotted]
  have hfour : [a, b, c, d].length = 3 + 1 := rfl
  have hread := cidrOctets_eq stack hfour hgroups he rest 0
  rw [netCidr, htext, hread]
  change cidrTail (octetsFrom 0 [a, b, c, d]) (e :: rest) = _
  rw [← hrest, cidrTail_of_prefixLength htail, octetsFrom_eq_address ha hb hc hd]

/-- What is no prefix is rejected. -/
theorem netCidr_cases (h : Terminated text) :
    netCidr stack text = reject ∨ ∃ bytes ip bits, CidrText bytes ip bits ∧ text = bytes ++ [0] := by
  rcases cidrOctets_cases stack h 3 0 with
    hreject | ⟨groups, c, rest, hlength, hgroups, hc, hrest, rfl⟩
  · left
    rw [netCidr, hreject]
    rfl
  · have hread := cidrOctets_eq stack hlength hgroups hc rest 0
    rcases cidrTail_cases hrest (octetsFrom 0 groups) with hreject | ⟨tail, bits, htail, hsplit⟩
    · left
      rw [netCidr, hread]
      exact hreject
    · obtain ⟨a, b, c', d, rfl⟩ : ∃ a b c d, groups = [a, b, c, d] := List.length_eq_four.mp hlength
      simp only [List.mem_cons, List.not_mem_nil, or_false, forall_eq_or_imp, forall_eq] at hgroups
      obtain ⟨ha, hb, hc', hd⟩ := hgroups
      refine Or.inr ⟨_, _, bits, .mk ha hb hc' hd htail, ?_⟩
      rw [hsplit]
      simp [dotted]

theorem cidrTail_append (h : Terminated text) (ip : UInt32) (more : List UInt8) :
    cidrTail ip (text ++ more) = cidrTail ip text := by
  cases text with
  | nil => exact absurd rfl h.ne_nil
  | cons c text =>
    by_cases hslash : c = slash
    · rw [hslash] at h ⊢
      obtain ⟨⟨digits, hnonzero⟩, rfl⟩ := h.of_cons (by decide)
      have hnumber : netNumber (digits ++ [0] ++ more) 32 = netNumber (digits ++ [0]) 32 := by
        rw [List.append_assoc, List.singleton_append, netNumber_eq hnonzero, netNumber_eq hnonzero]
      change (netNumber (digits ++ [0] ++ more) 32 >>= _) = (netNumber (digits ++ [0]) 32 >>= _)
      rw [hnumber]
    · change (if c = slash then netNumber (text ++ more) 32 else if c ≠ 0 then reject else .ok 32) >>= _ =
        (if c = slash then netNumber text 32 else if c ≠ 0 then reject else .ok 32) >>= _
      rw [if_neg hslash, if_neg hslash]

/-- What follows the terminator stays unread. -/
theorem cidrOctets_append (h : Terminated text) (left : ℕ) (ip : UInt32) (more : List UInt8) :
    cidrOctets stack (left + 1) ip (text ++ more) =
      (cidrOctets stack (left + 1) ip text).map fun result ↦ (result.1, result.2 ++ more) := by
  induction left generalizing text ip with
  | zero =>
    obtain ⟨group, c, rest, rfl, hgroup, hc, hrest⟩ := exists_digits h
    rw [List.append_assoc, List.cons_append, cidrOctets, cidrOctets,
      cidrOctet_eq hgroup hc _ List.length_ofFn, cidrOctet_eq hgroup hc _ List.length_ofFn]
    by_cases hoctet : Octet group
    · rw [if_pos hoctet, if_pos hoctet]
      rfl
    · rw [if_neg hoctet, if_neg hoctet]
      rfl
  | succ left ih =>
    obtain ⟨group, c, rest, rfl, hgroup, hc, hrest⟩ := exists_digits h
    rw [List.append_assoc, List.cons_append, cidrOctets, cidrOctets,
      cidrOctet_eq hgroup hc _ List.length_ofFn, cidrOctet_eq hgroup hc _ List.length_ofFn]
    by_cases hoctet : Octet group
    · rw [if_pos hoctet, if_pos hoctet]
      change (if c ≠ dot then reject else cidrOctets stack (left + 1) _ (rest ++ more)) =
        (if c ≠ dot then reject else cidrOctets stack (left + 1) _ rest).map _
      by_cases hdot : c = dot
      · rw [hdot] at hrest
        rw [if_neg (not_not.mpr hdot), if_neg (not_not.mpr hdot), ih (hrest.of_cons (by decide))]
      · rw [if_pos hdot, if_pos hdot]
        rfl
    · rw [if_neg hoctet, if_neg hoctet]
      rfl

theorem netCidr_append (h : Terminated text) (more : List UInt8) :
    netCidr stack (text ++ more) = netCidr stack text := by
  have hoctets := cidrOctets_append stack h 3 0 more
  rcases cidrOctets_cases stack h 3 0 with hreject | ⟨groups, c, rest, hlength, hgroups, hc, hrest, rfl⟩
  · rw [hreject] at hoctets
    rw [netCidr, netCidr, hoctets, hreject]
    rfl
  · have hread := cidrOctets_eq stack hlength hgroups hc rest 0
    rw [hread] at hoctets
    rw [netCidr, netCidr, hoctets, hread]
    exact cidrTail_append hrest _ more

/-- For every string, `net_cidr` stays inside the string and its buffer, and succeeds exactly on the
prefixes, with their mask and their address without the host bits. -/
theorem netCidr_grammar (s : CString) :
    netCidr stack s.buffer ≠ fault ∧
    (∀ ip mask, netCidr stack s.buffer = .ok (ip, mask) ↔
      ∃ whole bits, CidrText s.bytes whole bits ∧ mask = prefixMask bits ∧ ip = whole &&& mask) ∧
    ∀ ip mask, netCidr stack s.buffer = .ok (ip, mask) → ip &&& mask = ip := by
  have haccepted : ∀ ip mask, netCidr stack s.buffer = .ok (ip, mask) ↔
      ∃ whole bits, CidrText s.bytes whole bits ∧ mask = prefixMask bits ∧ ip = whole &&& mask := by
    intro ip mask
    constructor
    · intro hok
      rcases netCidr_cases stack s.terminated with hreject | ⟨bytes, whole, bits, htext, hbytes⟩
      · rw [hreject] at hok
        cases hok
      · have hsame : s.bytes = bytes := List.append_cancel_right hbytes
        rw [hbytes, netCidr_of_cidrText stack htext] at hok
        obtain ⟨rfl, rfl⟩ := Prod.mk.inj (Except.ok.inj hok)
        exact ⟨whole, bits, hsame ▸ htext, rfl, rfl⟩
    · rintro ⟨whole, bits, htext, rfl, rfl⟩
      exact netCidr_of_cidrText stack htext
  refine ⟨?_, haccepted, fun ip mask hok ↦ ?_⟩
  · rcases netCidr_cases stack s.terminated with hreject | ⟨bytes, whole, bits, htext, hbytes⟩
    · rw [hreject]
      decide
    · rw [hbytes, netCidr_of_cidrText stack htext]
      exact nofun
  · obtain ⟨whole, bits, -, -, rfl⟩ := (haccepted ip mask).mp hok
    rw [UInt32.and_assoc, UInt32.and_self]

example : netCidr (fun _ _ ↦ 0xff) (bytesOf "10.1.2.3/08" ++ [0]) = .ok (0x0a000000, 0xff000000) := by decide

end JordyOS.Net
