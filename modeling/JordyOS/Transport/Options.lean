import JordyOS.Machine.Buffer
import JordyOS.Transport.Refinement

/-!
# The options of a SYN/ACK

The option lists that are well formed, as a grammar, and the maximum segment sizes they offer.  The walk
of `tcp_input` over the options accepts exactly these lists, ends on every one, and takes the smallest
size offered.
-/

namespace JordyOS.Transport

open Machine Net

/-! ## The grammar -/

/-- The bytes are an option list with these maximum segment sizes.  Behind an end-of-list option anything
may follow. -/
inductive Options : List UInt8 → List UInt16 → Prop
  | nil : Options [] []
  | stop (rest : List UInt8) : Options (0 :: rest) []
  | nop {l : List UInt8} {offers : List UInt16} (h : Options l offers) : Options (1 :: l) offers
  | mss (hi lo : UInt8) {l : List UInt8} {offers : List UInt16}
      (hoffer : netRead16 (Memory.ofList [hi, lo]) ≠ 0) (h : Options l offers) :
      Options (2 :: 4 :: hi :: lo :: l) (netRead16 (Memory.ofList [hi, lo]) :: offers)
  | other (kind length : UInt8) (body : List UInt8) {l : List UInt8} {offers : List UInt16}
      (hkind : kind ≠ 0 ∧ kind ≠ 1 ∧ kind ≠ 2) (hlength : length.toNat = body.length + 2)
      (h : Options l offers) : Options (kind :: length :: (body ++ l)) offers

/-- The smallest of the sizes offered and our own. -/
def agreed (mss : UInt32) (offers : List UInt16) : UInt32 :=
  offers.foldl (fun mss offer ↦ min32 mss offer.toUInt32) mss

variable {bytes : List UInt8} {header fuel i : ℕ} {mss result : UInt32}

/-! ## Bytes of a list -/

theorem drop_eq_cons (hi : i < bytes.length) :
    bytes.drop i = Memory.ofList bytes i :: bytes.drop (i + 1) := by
  rw [Memory.ofList_eq_getElem hi]
  exact List.drop_eq_getElem_cons hi

theorem of_drop_eq_cons {x : UInt8} {l : List UInt8} (h : bytes.drop i = x :: l) :
    i < bytes.length ∧ Memory.ofList bytes i = x ∧ bytes.drop (i + 1) = l := by
  have hi : i < bytes.length := by
    by_contra hge
    rw [List.drop_eq_nil_of_le (Nat.not_lt.mp hge)] at h
    cases h
  rw [drop_eq_cons hi, List.cons.injEq] at h
  exact ⟨hi, h.1, h.2⟩

/-- The word in two bytes. -/
theorem netRead16_pair (b : Memory) (i : ℕ) :
    netRead16 (Memory.ofList [b i, b (i + 1)]) = netRead16 (b.shift i) := rfl

/-! ## The walk -/

theorem options_of_synOptions (hfuel : bytes.length ≤ i + fuel)
    (h : synOptions (Memory.ofList bytes) bytes.length fuel i mss = some result) :
    ∃ offers, Options (bytes.drop i) offers ∧ result = agreed mss offers := by
  induction fuel generalizing i mss with
  | zero =>
    rw [List.drop_eq_nil_of_le (by omega)]
    exact ⟨[], Options.nil, (Option.some.inj h).symm⟩
  | succ fuel ih =>
    unfold synOptions at h
    dsimp only at h
    split at h
    · rename_i hend
      rw [List.drop_eq_nil_of_le hend]
      exact ⟨[], Options.nil, (Option.some.inj h).symm⟩
    rename_i hin
    rw [drop_eq_cons (Nat.lt_of_not_le hin)]
    split at h
    · rename_i hkind
      rw [hkind]
      exact ⟨[], Options.stop _, (Option.some.inj h).symm⟩
    split at h
    · rename_i hkind
      obtain ⟨offers, hoptions, hresult⟩ := ih (by omega) h
      rw [hkind]
      exact ⟨offers, Options.nop hoptions, hresult⟩
    rename_i hzero hone
    split at h
    · cases h
    rename_i hlength
    simp only [not_or, Nat.not_le, ge_iff_le, gt_iff_lt, Nat.not_lt] at hlength
    obtain ⟨hinside, htwo, hfits⟩ := hlength
    have htwo' : 2 ≤ (Memory.ofList bytes (i + 1)).toNat :=
      UInt8.le_iff_toNat_le.mp (UInt8.not_lt.mp htwo)
    rw [drop_eq_cons hinside]
    split at h
    · rename_i hkind
      split at h
      · cases h
      rename_i hoffer
      obtain ⟨hfour, hne⟩ := not_or.mp hoffer
      rw [ne_eq, not_not] at hfour
      rw [hfour] at h hfits
      have hfour' : (4 : UInt8).toNat = 4 := rfl
      obtain ⟨offers, hoptions, hresult⟩ := ih (by omega) h
      rw [hkind, hfour, drop_eq_cons (by omega), drop_eq_cons (by omega)]
      exact ⟨_, Options.mss _ _ hne hoptions, hresult⟩
    · rename_i hkind
      obtain ⟨offers, hoptions, hresult⟩ := ih (by omega) h
      obtain ⟨n, hn⟩ : ∃ n, (Memory.ofList bytes (i + 1)).toNat = n + 2 :=
        ⟨_, (Nat.sub_add_cancel htwo').symm⟩
      have hsplit : bytes.drop (i + 1 + 1) =
          (bytes.drop (i + 2)).take n ++ bytes.drop (i + (Memory.ofList bytes (i + 1)).toNat) := by
        calc bytes.drop (i + 1 + 1)
            = (bytes.drop (i + 2)).take n ++ (bytes.drop (i + 2)).drop n :=
              (List.take_append_drop n _).symm
          _ = _ := by
              rw [List.drop_drop, hn]
              congr 2
              omega
      rw [hsplit]
      refine ⟨offers, Options.other _ _ _ ⟨hzero, hone, hkind⟩ ?_ hoptions, hresult⟩
      rw [hn, List.length_take, List.length_drop]
      omega

theorem synOptions_of_options {l : List UInt8} {offers : List UInt16} (hoptions : Options l offers)
    (hl : bytes.drop i = l) (hfuel : bytes.length ≤ i + fuel) :
    synOptions (Memory.ofList bytes) bytes.length fuel i mss = some (agreed mss offers) := by
  induction hoptions generalizing i fuel mss with
  | nil =>
    have hend : i ≥ bytes.length := List.drop_eq_nil_iff.mp hl
    cases fuel with
    | zero => rfl
    | succ fuel =>
      rw [synOptions, if_pos hend]
      rfl
  | stop rest =>
    obtain ⟨hin, hkind, -⟩ := of_drop_eq_cons hl
    obtain ⟨fuel, rfl⟩ := Nat.exists_eq_succ_of_ne_zero (show fuel ≠ 0 by omega)
    rw [synOptions, if_neg (Nat.not_le.mpr hin)]
    exact if_pos hkind
  | nop h ih =>
    obtain ⟨hin, hkind, hrest⟩ := of_drop_eq_cons hl
    obtain ⟨fuel, rfl⟩ := Nat.exists_eq_succ_of_ne_zero (show fuel ≠ 0 by omega)
    rw [synOptions, if_neg (Nat.not_le.mpr hin), hkind, if_neg (by decide), if_pos rfl]
    exact ih hrest (by omega)
  | mss hi lo hoffer h ih =>
    obtain ⟨hin, hkind, hrest⟩ := of_drop_eq_cons hl
    obtain ⟨hin', hlength, hrest⟩ := of_drop_eq_cons hrest
    obtain ⟨hin'', hhigh, hrest⟩ := of_drop_eq_cons hrest
    obtain ⟨hlast, hlow, hrest⟩ := of_drop_eq_cons hrest
    obtain ⟨fuel, rfl⟩ := Nat.exists_eq_succ_of_ne_zero (show fuel ≠ 0 by omega)
    have hfour : (4 : UInt8).toNat = 4 := rfl
    have hword : netRead16 ((Memory.ofList bytes).shift (i + 2)) = netRead16 (Memory.ofList [hi, lo]) := by
      rw [← netRead16_pair, ← hhigh, ← hlow]
    have hgood : ¬ (i + 1 ≥ bytes.length ∨ Memory.ofList bytes (i + 1) < 2 ∨
        i + (Memory.ofList bytes (i + 1)).toNat > bytes.length) := by
      rw [hlength, hfour]
      exact not_or.mpr ⟨by omega, not_or.mpr ⟨by decide, by omega⟩⟩
    rw [synOptions, if_neg (Nat.not_le.mpr hin), hkind, if_neg (by decide), if_neg (by decide),
      if_neg hgood, if_pos rfl, hlength, hword, if_neg (by simp [hoffer]), hfour]
    exact ih hrest (by omega)
  | @other kind length body l offers hkind hlength h ih =>
    obtain ⟨hin, hkind', hrest⟩ := of_drop_eq_cons hl
    obtain ⟨hin', hlength', hrest⟩ := of_drop_eq_cons hrest
    obtain ⟨fuel, rfl⟩ := Nat.exists_eq_succ_of_ne_zero (show fuel ≠ 0 by omega)
    have hrest' : bytes.drop (i + length.toNat) = l := by
      calc bytes.drop (i + length.toNat) = (bytes.drop (i + 1 + 1)).drop body.length := by
            rw [List.drop_drop, hlength]
            congr 1
            omega
        _ = l := by rw [hrest, List.drop_left]
    have hcount := congrArg List.length hrest
    rw [List.length_drop, List.length_append] at hcount
    have hgood : ¬ (i + 1 ≥ bytes.length ∨ Memory.ofList bytes (i + 1) < 2 ∨
        i + (Memory.ofList bytes (i + 1)).toNat > bytes.length) := by
      have htwo : (2 : UInt8).toNat = 2 := rfl
      rw [hlength', UInt8.lt_iff_toNat_lt, hlength, htwo]
      omega
    rw [synOptions, if_neg (Nat.not_le.mpr hin), hkind', if_neg hkind.1, if_neg hkind.2.1, if_neg hgood,
      if_neg hkind.2.2, hlength']
    exact ih hrest' (by omega)

/-- The walk over the options of a segment without payload. -/
theorem synOptions_iff (bytes : List UInt8) (mss result : UInt32) :
    synOptions (Memory.ofList bytes) bytes.length bytes.length 20 mss = some result ↔
      ∃ offers, Options (bytes.drop 20) offers ∧ result = agreed mss offers := by
  constructor
  · exact options_of_synOptions (Nat.le_add_left _ _)
  · rintro ⟨offers, hoptions, rfl⟩
    exact synOptions_of_options hoptions rfl (Nat.le_add_left _ _)

end JordyOS.Transport
