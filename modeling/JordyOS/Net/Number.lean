import JordyOS.Net.Cidr

/-!
# Numbers in text

`net_number` of `packet.c` and `net_print_number` of `command.c` undo each other, and the guard in front of
each digit keeps every intermediate result within 32 bits.
-/

namespace JordyOS.Net

open Machine

/-! ## Reading without wrap-around -/

/-- The result of an unsigned operation that does not wrap around. -/
def exactly (n : ℤ) : Scan ℕ := if 0 ≤ n ∧ n < 2 ^ 32 then .ok n.toNat else fault

/-- The loop of `net_number` with a fault where an operation would wrap around. -/
def netNumberCheckedLoop (maximum : ℕ) : (n : ℕ) → (text : List UInt8) → Scan ℕ
  | _, [] => fault
  | n, c :: text =>
    if c = 0 then .ok n
    else if c < 48 ∨ c > 57 then reject
    else do
      let digit ← exactly (c.toNat - 48)
      if digit > maximum then reject
      else
        let room ← exactly (maximum - digit)
        if n > room / 10 then reject
        else
          let tens ← exactly (n * 10)
          let n ← exactly (tens + digit)
          netNumberCheckedLoop maximum n text

def netNumberChecked (text : List UInt8) (maximum : ℕ) : Scan ℕ := do
  let c ← peek text
  if c = 0 then reject else netNumberCheckedLoop maximum 0 text

variable {c : UInt8} {maximum n : UInt32}

theorem exactly_ok {n : ℕ} {m : ℤ} (heq : m = n) (hword : n < 2 ^ 32) : exactly m = .ok n := by
  rw [exactly, if_pos (by omega), heq, Int.toNat_natCast]

/-- Behind the guard no operation wraps around. -/
theorem netNumberCheckedLoop_eq (maximum n : UInt32) (text : List UInt8) (hn : n ≤ maximum) :
    netNumberCheckedLoop maximum.toNat n.toNat text = (netNumberLoop maximum n text).map UInt32.toNat := by
  induction text generalizing n with
  | nil => rfl
  | cons c text ih =>
    rw [netNumberCheckedLoop, netNumberLoop]
    by_cases hc : c = 0
    · rw [if_pos hc, if_pos hc]
      rfl
    rw [if_neg hc, if_neg hc]
    by_cases hdigit : c < 48 ∨ c > 57
    · rw [if_pos hdigit, if_pos hdigit]
      rfl
    rw [if_neg hdigit, if_neg hdigit]
    have hisDigit : IsDigit c := not_not.mp (mt not_isDigit_iff.mpr hdigit)
    have hvalue : ((c - 48).toUInt32).toNat = c.toNat - 48 := hisDigit.toNat_sub
    have hsmall : c.toNat - 48 < 2 ^ 32 := by
      have := c.toNat_lt
      omega
    rw [exactly_ok (by have := hisDigit.1; omega) hsmall, ok_bind]
    dsimp only
    have hword := maximum.toNat_lt
    by_cases hfits : maximum.toNat < c.toNat - 48
    · have hlarge : (c - 48).toUInt32 > maximum := UInt32.lt_iff_toNat_lt.mpr (by omega)
      rw [if_pos hfits, if_pos (.inl hlarge)]
      rfl
    rw [if_neg hfits, exactly_ok (n := maximum.toNat - (c.toNat - 48)) (by omega) (by omega), ok_bind]
    have hexceeds := exceeds_iff maximum n (c - 48).toUInt32
    rw [hvalue] at hexceeds
    by_cases hroom : maximum.toNat < n.toNat * 10 + (c.toNat - 48)
    · rw [if_pos (hexceeds.mpr hroom), if_pos (by omega)]
      rfl
    · have hnext : (n * 10 + (c - 48).toUInt32).toNat = n.toNat * 10 + (c.toNat - 48) := by
        have hten : (10 : UInt32).toNat = 10 := rfl
        rw [UInt32.toNat_add, UInt32.toNat_mul, hvalue, hten]
        omega
      rw [if_neg (mt hexceeds.mp hroom), if_neg (by omega), exactly_ok (n := n.toNat * 10) (by omega) (by omega),
        ok_bind, exactly_ok (n := n.toNat * 10 + (c.toNat - 48)) (by omega) (by omega), ok_bind, ← hnext]
      exact ih _ (UInt32.le_iff_toNat_le.mpr (by omega))

/-! ## Printing -/

/-- The loop of `net_print_number`; the digits are written from the end of the buffer on. -/
def netPrintNumberLoop : (buffer : List UInt8) → (i : ℕ) → (n : UInt32) → Scan (List UInt8 × ℕ)
  | _, 0, _ => fault
  | buffer, i + 1, n => do
    let buffer ← poke buffer i (48 + (n % 10).toUInt8)
    if n / 10 ≠ 0 then netPrintNumberLoop buffer i (n / 10) else .ok (buffer, i)

/-- The string that is handed to `sys_write`; `stack` is what the buffer holds before it is used. -/
def netPrintNumber (stack : Fin 11 → UInt8) (n : UInt32) : Scan (List UInt8) := do
  let buffer ← poke (List.ofFn stack) 10 0
  let (buffer, i) ← netPrintNumberLoop buffer 10 n
  .ok (buffer.drop i)

theorem digit_eq (n : UInt32) : 48 + (n % 10).toUInt8 = lastDigit n.toNat := by
  have hten : (10 : UInt32).toNat = 10 := rfl
  have hbase : (48 : UInt8).toNat = 48 := rfl
  rw [← UInt8.toNat_inj, toNat_lastDigit, UInt8.toNat_add, UInt32.toNat_toUInt8, UInt32.toNat_mod, hten, hbase]
  omega

/-- The loop leaves the digits in front of what the buffer holds from `i` on. -/
theorem netPrintNumberLoop_eq (n : UInt32) (buffer : List UInt8) (i : ℕ) (hi : i ≤ buffer.length)
    (hpos : 0 < i) (hn : n.toNat < 10 ^ i) : ∃ written start, netPrintNumberLoop buffer i n = .ok (written, start) ∧
      written.drop start = decimalText n.toNat ++ buffer.drop i := by
  induction i generalizing buffer n with
  | zero => exact absurd hpos (Nat.lt_irrefl 0)
  | succ i ih =>
    have hten : (10 : UInt32).toNat = 10 := rfl
    have hdrop : (buffer.set i (lastDigit n.toNat)).drop i = lastDigit n.toNat :: buffer.drop (i + 1) := by
      rw [List.drop_set, if_neg (Nat.lt_irrefl i), Nat.sub_self, List.drop_eq_getElem_cons hi, List.set_cons_zero]
    rw [netPrintNumberLoop, poke, if_pos (Nat.lt_of_succ_le hi), digit_eq, ok_bind]
    by_cases hmore : n / 10 ≠ 0
    · have hle : 10 ≤ n.toNat := by
        by_contra hlt
        refine hmore (UInt32.toNat_inj.mp ?_)
        rw [UInt32.toNat_div, hten]
        exact Nat.div_eq_of_lt (Nat.lt_of_not_le hlt)
      have hdiv : (n / 10).toNat = n.toNat / 10 := by rw [UInt32.toNat_div, hten]
      have hsmaller : (n / 10).toNat < 10 ^ i := by
        rw [hdiv]
        rw [pow_succ] at hn
        omega
      have hi_pos : 0 < i := by
        by_contra hzero
        obtain rfl : i = 0 := by omega
        rw [hdiv, pow_zero] at hsmaller
        omega
      have hlength : i ≤ (buffer.set i (lastDigit n.toNat)).length := by
        rw [List.length_set]
        exact Nat.le_of_succ_le hi
      obtain ⟨written, start, hloop, hwritten⟩ := ih (n / 10) _ hlength hi_pos hsmaller
      refine ⟨written, start, ?_, ?_⟩
      · rw [if_pos hmore, hloop]
      · rw [hwritten, hdrop, hdiv, decimalText_of_le hle, List.append_assoc, List.singleton_append]
    · have hlt : n.toNat < 10 := by
        have hzero := congrArg UInt32.toNat (not_not.mp hmore)
        rw [UInt32.toNat_div, hten, UInt32.toNat_zero] at hzero
        omega
      refine ⟨_, i, if_neg hmore, ?_⟩
      rw [hdrop, decimalText_of_lt hlt, List.singleton_append]

/-- Every number fits the buffer and is printed as its decimal text. -/
theorem netPrintNumber_eq (stack : Fin 11 → UInt8) (n : UInt32) :
    netPrintNumber stack n = .ok (decimalText n.toNat ++ [0]) := by
  have hlength : (List.ofFn stack).length = 11 := List.length_ofFn
  have hset : ((List.ofFn stack).set 10 0).drop 10 = [0] := by
    rw [List.drop_set, if_neg (by decide), List.drop_eq_getElem_cons (by rw [hlength]; decide),
      Nat.sub_self, List.set_cons_zero, List.drop_of_length_le (by rw [hlength])]
  have hword := n.toNat_lt
  obtain ⟨written, start, hloop, hwritten⟩ := netPrintNumberLoop_eq n
    ((List.ofFn stack).set 10 0) 10 (by rw [List.length_set, hlength]; decide) (by decide) (by omega)
  rw [netPrintNumber, poke, if_pos (by rw [hlength]; decide), ok_bind, hloop, ok_bind]
  change Except.ok (written.drop start) = _
  rw [hwritten, hset]

/-- The answer is a value when the text is a number that is not too large. -/
theorem netNumber_eq_ok {s : CString} {maximum value : UInt32} :
    netNumber s.buffer maximum = .ok value ↔ s.bytes ≠ [] ∧ (∀ c ∈ s.bytes, IsDigit c) ∧
      decimalValue s.bytes ≤ maximum.toNat ∧ value.toNat = decimalValue s.bytes := by
  have hword := maximum.toNat_lt
  rw [CString.buffer, netNumber_eq s.nonzero]
  constructor
  · intro h
    split at h
    · rename_i hnumber
      obtain ⟨hnonempty, hdigits, hsmall⟩ := hnumber
      refine ⟨hnonempty, hdigits, hsmall, ?_⟩
      rw [← Except.ok.inj h, UInt32.toNat_ofNat_of_lt' (by rw [UInt32.size]; omega)]
    · cases h
  · rintro ⟨hnonempty, hdigits, hsmall, hvalue⟩
    rw [if_pos ⟨hnonempty, hdigits, hsmall⟩, ← hvalue, UInt32.ofNat_toNat]

theorem netNumberChecked_eq (text : List UInt8) (maximum : UInt32) :
    netNumberChecked text maximum.toNat = (netNumber text maximum).map UInt32.toNat := by
  cases text with
  | nil => rfl
  | cons c text =>
    have hloop := netNumberCheckedLoop_eq maximum 0 (c :: text) UInt32.zero_le
    change (if c = 0 then reject else netNumberCheckedLoop maximum.toNat 0 (c :: text)) =
      (if c = 0 then reject else netNumberLoop maximum 0 (c :: text)).map UInt32.toNat
    by_cases hc : c = 0
    · rw [if_pos hc, if_pos hc]
      rfl
    · rw [if_neg hc, if_neg hc]
      exact hloop

theorem netNumber_ne_fault (s : CString) (maximum : UInt32) : netNumber s.buffer maximum ≠ fault := by
  rw [CString.buffer, netNumber_eq s.nonzero]
  split <;> exact nofun

/-- What is printed is read back. -/
theorem netNumber_decimalText (n : UInt32) :
    netNumber (decimalText n.toNat ++ [0]) 0xffffffff = .ok n := by
  rw [netNumber_eq fun c hc ↦ (isDigit_of_mem_decimalText hc).ne_zero, decimalValue_decimalText, if_pos,
    UInt32.ofNat_toNat]
  exact ⟨decimalText_ne_nil _, fun c ↦ isDigit_of_mem_decimalText, Nat.le_of_lt_succ n.toNat_lt⟩

/-- Numbers are accepted exactly when they are decimal and not above the maximum, nothing wraps around on the
way, and what is printed is read back. -/
theorem netNumber_exact :
    (∀ (s : CString) (maximum : UInt32),
      (∀ value, netNumber s.buffer maximum = .ok value ↔ s.bytes ≠ [] ∧ (∀ c ∈ s.bytes, IsDigit c) ∧
        decimalValue s.bytes ≤ maximum.toNat ∧ value.toNat = decimalValue s.bytes) ∧
      netNumber s.buffer maximum ≠ fault ∧
      netNumberChecked s.buffer maximum.toNat = (netNumber s.buffer maximum).map UInt32.toNat) ∧
    ∀ stack n, ∃ text, netPrintNumber stack n = .ok text ∧ netNumber text 0xffffffff = .ok n :=
  ⟨fun s maximum ↦ ⟨fun _ ↦ netNumber_eq_ok, netNumber_ne_fault s maximum, netNumberChecked_eq s.buffer maximum⟩,
    fun stack n ↦ ⟨_, netPrintNumber_eq stack n, netNumber_decimalText n⟩⟩

end JordyOS.Net
