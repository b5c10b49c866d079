import JordyOS.Isolation.Separation
import JordyOS.Machine.Words

/-!
# The check of user pointers

`user_range` decides whether the kernel may copy to or from a range of user addresses.  Every addition,
subtraction and table access of it is checked here: one that wraps or leaves its array has no result, and
neither has a loop that does not end.  It answers on every range, and what it answers is exact.
-/

namespace JordyOS.Isolation

open Machine Paging

/-! ## The code -/

/-- An addition that does not wrap. -/
def addExact (a b : UInt64) : Option UInt64 :=
  if a.toNat + b.toNat < 2 ^ 64 then some (a + b) else none

/-- A subtraction that does not wrap. -/
def subExact (a b : UInt64) : Option UInt64 :=
  if b.toNat ≤ a.toNat then some (a - b) else none

/-- `pt[i][j]`, inside the array. -/
def readEntry (t : PageTables) (i j : ℕ) : Option UInt64 :=
  if i < 5 ∧ j < 512 then some (t.pt i j) else none

/-- The loop over the pages up to `last`. -/
def pageLoop (t : PageTables) (write : Bool) (last : UInt64) : (rounds : ℕ) → (current : UInt64) → Option Bool
  | 0, _ => none
  | rounds + 1, current =>
    if current ≤ last then do
      let offset ← subExact current (UInt64.ofNat userBase)
      let entry ← readEntry t (offset >>> 21).toNat (offset >>> 12 &&& 511).toNat
      if entry &&& (P ||| U) ≠ P ||| U ∨ (write = true ∧ entry &&& W = 0) then some false
      else do
        let next ← addExact current (UInt64.ofNat page)
        pageLoop t write last rounds next
    else some true

/-- The part of `user_range` behind the bounds. -/
def checkPages (t : PageTables) (write : Bool) (rounds : ℕ) (address size : UInt64) : Option Bool := do
  let behind ← addExact address size
  let last ← subExact behind 1
  pageLoop t write last rounds (address &&& ~~~(UInt64.ofNat page - 1))

/-- More rounds than there are user pages. -/
@[irreducible]
def maxRounds : ℕ := (userStackTop - userBase) / page + 1

def userRange (active : Option Process) (address size : UInt64) (write : Bool) : Option Bool :=
  if size = 0 then some true
  else
    match active with
    | none => some false
    | some p =>
      if address < UInt64.ofNat userBase ∨ address ≥ UInt64.ofNat userStackTop then some false
      else do
        let room ← subExact (UInt64.ofNat userStackTop) address
        if size > room then some false else checkPages p.tables write maxRounds address size

/-! ## What it decides -/

/-- An entry that lets ring 3 read its page, and write it when that is asked. -/
structure Grants (entry : UInt64) (write : Bool) : Prop where
  present : present entry = true
  user : user entry = true
  writable : write = true → writable entry = true

/-- The leaf entry of the page that a user address lies on grants the access. -/
def Accessible (t : PageTables) (write : Bool) (a : ℕ) : Prop := Grants (leaf t.pt (a / page - 2 ^ 18)) write

variable {t : PageTables} {write : Bool} {entry last current : UInt64} {r rounds : ℕ}

theorem and_present_user_iff : entry &&& (P ||| U) = P ||| U ↔ present entry = true ∧ user entry = true := by
  have hmask : (P ||| U).toNat = 5 := rfl
  rw [← UInt64.toNat_inj, UInt64.toNat_and, hmask]
  constructor
  · intro h
    have hbit : ∀ i, (entry.toNat.testBit i && Nat.testBit 5 i) = Nat.testBit 5 i := by
      intro i
      rw [← Nat.testBit_and, h]
    exact ⟨(Bool.and_eq_true_iff.mp (hbit 0)).1, (Bool.and_eq_true_iff.mp (hbit 2)).1⟩
  · rintro ⟨hpresent, huser⟩
    refine Nat.eq_of_testBit_eq fun i ↦ ?_
    rw [Nat.testBit_and]
    match i with
    | 0 => rw [show entry.toNat.testBit 0 = true from hpresent, Bool.true_and]
    | 1 => exact Bool.and_false _
    | 2 => rw [show entry.toNat.testBit 2 = true from huser, Bool.true_and]
    | i + 3 =>
      have hsmall : 5 < 2 ^ (i + 3) := (by decide : 5 < 2 ^ 3).trans_le (Nat.pow_le_pow_right (by decide) (by omega))
      rw [Nat.testBit_lt_two_pow hsmall, Bool.and_false]

theorem and_writable_iff : entry &&& W = 0 ↔ writable entry = false := by
  have hmask : W.toNat = 2 ^ 1 := rfl
  rw [← UInt64.toNat_inj, UInt64.toNat_and, hmask, Nat.and_two_pow]
  change (entry.toNat.testBit 1).toNat * 2 ^ 1 = 0 ↔ entry.toNat.testBit 1 = false
  cases entry.toNat.testBit 1 <;> decide

/-- The test of the loop refuses exactly the entries that do not grant the access. -/
theorem refuses_iff :
    (entry &&& (P ||| U) ≠ P ||| U ∨ (write = true ∧ entry &&& W = 0)) ↔ ¬ Grants entry write := by
  rw [ne_eq, and_present_user_iff, and_writable_iff]
  constructor
  · rintro (hentry | ⟨hwrite, hreadonly⟩) hgrants
    · exact hentry ⟨hgrants.present, hgrants.user⟩
    · rw [hgrants.writable hwrite] at hreadonly
      cases hreadonly
  · intro hrefused
    by_contra hpasses
    obtain ⟨hentry, hwritable⟩ := not_or.mp hpasses
    obtain ⟨hpresent, huser⟩ := not_not.mp hentry
    exact hrefused ⟨hpresent, huser, fun hwrite ↦ Bool.eq_true_of_not_eq_false fun h ↦ hwritable ⟨hwrite, h⟩⟩

theorem userBase_eq : (UInt64.ofNat userBase).toNat = 2 ^ 18 * 4096 := rfl

theorem userStackTop_eq : (UInt64.ofNat userStackTop).toNat = (2 ^ 18 + 2114) * 4096 := rfl

/-- A round finds the entry of its page. -/
theorem round_entry (t : PageTables) (hcurrent : current.toNat = (2 ^ 18 + r) * 4096) (hr : r < 2114) :
    ∃ offset, subExact current (UInt64.ofNat userBase) = some offset ∧
      readEntry t (offset >>> 21).toNat (offset >>> 12 &&& 511).toNat = some (leaf t.pt r) := by
  have hle : (UInt64.ofNat userBase).toNat ≤ current.toNat := by
    rw [userBase_eq]
    omega
  have hoffset : current - UInt64.ofNat userBase = UInt64.ofNat (r * page) := by
    rw [← UInt64.toNat_inj, UInt64.toNat_sub_of_le _ _ (UInt64.le_iff_toNat_le.mpr hle),
      toNat_pageOffset (by omega), hcurrent, userBase_eq]
    change _ = r * 4096
    omega
  obtain ⟨hrow, hplace⟩ := row_pageOffset (by omega : r < 2 ^ 32)
  refine ⟨UInt64.ofNat (r * page), by rw [subExact, if_pos hle, hoffset], ?_⟩
  rw [hrow, hplace, readEntry, if_pos (by omega)]
  rfl

/-- The loop ends and looks at every page up to the last byte. -/
theorem pageLoop_exact (t : PageTables) (write : Bool) (hcurrent : current.toNat = (2 ^ 18 + r) * 4096)
    (hlast : last.toNat < (2 ^ 18 + 2114) * 4096) (hr : r ≤ 2114) (hrounds : 2114 < r + rounds) :
    ∃ answer, pageLoop t write last rounds current = some answer ∧
      (answer = true ↔ ∀ q, r ≤ q → (2 ^ 18 + q) * 4096 ≤ last.toNat → Grants (leaf t.pt q) write) := by
  induction rounds generalizing r current with
  | zero => omega
  | succ rounds ih =>
    rw [pageLoop]
    by_cases hmore : current ≤ last
    · have hle : current.toNat ≤ last.toNat := UInt64.le_iff_toNat_le.mp hmore
      obtain ⟨offset, hoffset, hentry⟩ := round_entry t hcurrent (by omega)
      rw [if_pos hmore, hoffset]
      dsimp only [Option.bind_eq_bind, Option.bind_some]
      rw [hentry]
      dsimp only [Option.bind_some]
      by_cases hgrants : Grants (leaf t.pt r) write
      · have hpage : (UInt64.ofNat page).toNat = 4096 := rfl
        have hnext : (current + UInt64.ofNat page).toNat = (2 ^ 18 + (r + 1)) * 4096 := by
          rw [UInt64.toNat_add, hpage, hcurrent]
          omega
        obtain ⟨answer, hanswer, hiff⟩ := ih hnext (by omega) (by omega)
        refine ⟨answer, ?_, hiff.trans ⟨fun h q hq hin ↦ ?_, fun h q hq hin ↦ h q (by omega) hin⟩⟩
        · rw [if_neg (fun h ↦ refuses_iff.mp h hgrants), addExact, if_pos (by rw [hpage]; omega)]
          exact hanswer
        · rcases Nat.eq_or_lt_of_le hq with rfl | hlater
          · exact hgrants
          · exact h q hlater hin
      · refine ⟨false, if_pos (refuses_iff.mpr hgrants), iff_of_false Bool.false_ne_true fun h ↦ ?_⟩
        exact hgrants (h r (Nat.le_refl r) (by omega))
    · have hlt : last.toNat < current.toNat := by
        rw [UInt64.le_iff_toNat_le] at hmore
        omega
      exact ⟨true, if_neg hmore, iff_of_true rfl fun q hq hin ↦ by omega⟩

/-! ## The check -/

/-- The mask of `user_range` rounds down to the page. -/
theorem toNat_pageStart (address : UInt64) :
    (address &&& ~~~(UInt64.ofNat page - 1)).toNat = address.toNat / 4096 * 4096 := by
  have hmask : (~~~(UInt64.ofNat page - 1)).toNat = 2 ^ 12 * (2 ^ 52 - 1) := by decide
  rw [UInt64.toNat_and, hmask]
  exact and_highBits address.toNat_lt

variable {address size : UInt64}

/-- Between the bounds the pages decide. -/
theorem checkPages_exact (t : PageTables) (write : Bool) (hrounds : 2114 < rounds) (hsize : 0 < size.toNat)
    (hlow : 2 ^ 18 * 4096 ≤ address.toNat) (hhigh : address.toNat + size.toNat ≤ (2 ^ 18 + 2114) * 4096) :
    ∃ answer, checkPages t write rounds address size = some answer ∧
      (answer = true ↔
        ∀ a, address.toNat ≤ a → a < address.toNat + size.toNat → Accessible t write a) := by
  have hbehind : (address + size).toNat = address.toNat + size.toNat := by
    rw [UInt64.toNat_add]
    omega
  have hone : (1 : UInt64).toNat ≤ (address + size).toNat := by
    rw [hbehind, UInt64.toNat_one]
    omega
  have hlast : (address + size - 1).toNat = address.toNat + size.toNat - 1 := by
    rw [UInt64.toNat_sub_of_le _ _ (UInt64.le_iff_toNat_le.mpr hone), hbehind, UInt64.toNat_one]
  have hstart : (address &&& ~~~(UInt64.ofNat page - 1)).toNat =
      (2 ^ 18 + (address.toNat / 4096 - 2 ^ 18)) * 4096 := by
    rw [toNat_pageStart]
    omega
  obtain ⟨answer, hanswer, hiff⟩ := pageLoop_exact t write hstart
    (by omega : (address + size - 1).toNat < (2 ^ 18 + 2114) * 4096) (by omega)
    (by omega : 2114 < address.toNat / 4096 - 2 ^ 18 + rounds)
  refine ⟨answer, ?_, hiff.trans ⟨fun h a ha hin ↦ ?_, fun h q hq hin ↦ ?_⟩⟩
  · rw [checkPages, addExact, if_pos (by omega)]
    dsimp only [Option.bind_eq_bind, Option.bind_some]
    rw [subExact, if_pos hone]
    exact hanswer
  · obtain ⟨q, hq⟩ : ∃ q, a / 4096 = 2 ^ 18 + q := Nat.exists_eq_add_of_le (by omega)
    change Grants (leaf t.pt (a / 4096 - 2 ^ 18)) write
    rw [hq, Nat.add_sub_cancel_left]
    have hpage : (2 ^ 18 + q) * 4096 ≤ a := by
      rw [← hq]
      exact Nat.div_mul_le_self a 4096
    exact h q (by omega) (hpage.trans (by omega))
  · -- the first byte of the range that lies on the page
    have hbyte : Accessible t write (max address.toNat ((2 ^ 18 + q) * 4096)) := h _ (by omega) (by omega)
    have hplace : max address.toNat ((2 ^ 18 + q) * 4096) / page - 2 ^ 18 = q := by
      change max address.toNat ((2 ^ 18 + q) * 4096) / 4096 - 2 ^ 18 = q
      omega
    rw [Accessible, hplace] at hbyte
    exact hbyte

/-- Every range has an answer, given by the leaf entries of its pages. -/
theorem userRange_leaf (p : Process) (address : UInt64) (write : Bool) (hsize : size ≠ 0) :
    ∃ answer, userRange (some p) address size write = some answer ∧
      (answer = true ↔ address.toNat + size.toNat ≤ userStackTop ∧ userBase ≤ address.toNat ∧
        ∀ a, address.toNat ≤ a → a < address.toNat + size.toNat → Accessible p.tables write a) := by
  have hbase : userBase = 2 ^ 18 * 4096 := rfl
  have htop : userStackTop = (2 ^ 18 + 2114) * 4096 := rfl
  have hpos : 0 < size.toNat := by
    refine Nat.pos_of_ne_zero fun hzero ↦ hsize ?_
    rw [← UInt64.toNat_inj, hzero]
    rfl
  unfold userRange
  rw [if_neg hsize]
  dsimp only
  by_cases houtside : address < UInt64.ofNat userBase ∨ address ≥ UInt64.ofNat userStackTop
  · refine ⟨false, if_pos houtside, iff_of_false Bool.false_ne_true ?_⟩
    rw [ge_iff_le, UInt64.lt_iff_toNat_lt, UInt64.le_iff_toNat_le, userBase_eq, userStackTop_eq] at houtside
    rintro ⟨hhigh, hlow, -⟩
    omega
  rw [if_neg houtside]
  rw [ge_iff_le, UInt64.lt_iff_toNat_lt, UInt64.le_iff_toNat_le, userBase_eq, userStackTop_eq] at houtside
  obtain ⟨hlow, hbelow⟩ := not_or.mp houtside
  have hle : address.toNat ≤ (UInt64.ofNat userStackTop).toNat := by
    rw [userStackTop_eq]
    omega
  have hroom : (UInt64.ofNat userStackTop - address).toNat = (2 ^ 18 + 2114) * 4096 - address.toNat := by
    rw [UInt64.toNat_sub_of_le _ _ (UInt64.le_iff_toNat_le.mpr hle), userStackTop_eq]
  rw [subExact, if_pos hle, Option.bind_eq_bind, Option.bind_some]
  by_cases hlong : size > UInt64.ofNat userStackTop - address
  · refine ⟨false, if_pos hlong, iff_of_false Bool.false_ne_true ?_⟩
    rw [gt_iff_lt, UInt64.lt_iff_toNat_lt, hroom] at hlong
    rintro ⟨hhigh, -, -⟩
    omega
  rw [if_neg hlong]
  rw [gt_iff_lt, UInt64.lt_iff_toNat_lt, hroom] at hlong
  have hrounds : 2114 < maxRounds := by
    unfold maxRounds
    decide
  obtain ⟨answer, hanswer, hiff⟩ := checkPages_exact p.tables write hrounds hpos (by omega)
    (by omega : address.toNat + size.toNat ≤ (2 ^ 18 + 2114) * 4096)
  exact ⟨answer, hanswer, hiff.trans ⟨fun h ↦ ⟨by omega, by omega, h⟩, fun h ↦ h.2.2⟩⟩

/-- In a prepared process the leaf entries are what the translation of a user page goes by. -/
theorem accessible_iff_walk {place : Placement} {image : Image} {slot rounds a : ℕ} (hslot : slot < slots)
    (h : image.Valid rounds) (mode : UInt32) (command : Option Memory) (old : Process) (other : Frames)
    (hlow : userBase ≤ a) (hhigh : a < userStackTop) :
    Accessible (prepare place image.toC slot mode command old).tables write a ↔
      ∃ u, walk (place.frames slot (prepare place image.toC slot mode command old).tables other)
        (place.pml4 slot) (a / page) = some u ∧ u.user = true ∧ (write = true → u.writable = true) := by
  have hbase : userBase = 2 ^ 18 * 4096 := rfl
  have htop : userStackTop = (2 ^ 18 + 2114) * 4096 := rfl
  obtain ⟨r, hr⟩ : ∃ r, a / page = 2 ^ 18 + r := Nat.exists_eq_add_of_le (by
    change 2 ^ 18 ≤ a / 4096
    omega)
  have hsmall : r < 2114 := by
    change a / 4096 = 2 ^ 18 + r at hr
    omega
  rw [Accessible, hr, Nat.add_sub_cancel_left, tables_prepare h, walk_leaf hslot (by omega)]
  constructor
  · intro hgrants
    exact ⟨_, if_pos ⟨by omega, hgrants.present⟩, hgrants.user, hgrants.writable⟩
  · rintro ⟨u, hu, huser, hwritable⟩
    rw [Option.ite_none_right_eq_some, Option.some.injEq] at hu
    obtain ⟨⟨-, hpresent⟩, rfl⟩ := hu
    exact ⟨hpresent, huser, hwritable⟩

/-- For every prepared process, range and access, `user_range` answers, without a wrap or an access outside
the tables, and says yes exactly when the range lies between the bounds and every byte of it is on a page
whose leaf entry grants the access; the translation then grants it too. -/
theorem userRange_exact (place : Placement) (data : List UInt8) (image : Image)
    (hembed : embed data = .ok image) (slot : ℕ) (hslot : slot < slots) (mode : UInt32)
    (command : Option Memory) (old : Process) (other : Frames) (address size : UInt64) (hsize : size ≠ 0)
    (write : Bool) :
    let p := prepare place image.toC slot mode command old
    ∃ answer, userRange (some p) address size write = some answer ∧
      (answer = true ↔ address.toNat + size.toNat ≤ userStackTop ∧ userBase ≤ address.toNat ∧
        ∀ a, address.toNat ≤ a → a < address.toNat + size.toNat → Accessible p.tables write a) ∧
      (answer = true ↔ address.toNat + size.toNat ≤ userStackTop ∧ userBase ≤ address.toNat ∧
        ∀ a, address.toNat ≤ a → a < address.toNat + size.toNat →
          ∃ u, walk (place.frames slot p.tables other) (place.pml4 slot) (a / page) = some u ∧
            u.user = true ∧ (write = true → u.writable = true)) := by
  intro p
  obtain ⟨answer, hanswer, hiff⟩ := userRange_leaf p address write hsize
  refine ⟨answer, hanswer, hiff, hiff.trans ?_⟩
  refine and_congr_right fun hhigh ↦ and_congr_right fun hlow ↦ ?_
  refine forall_congr' fun a ↦ forall₂_congr fun ha hin ↦ ?_
  exact accessible_iff_walk hslot (valid_of_embed hembed) mode command old other (by omega) (by omega)

/-- A write into the code page of the process is refused by the check. -/
theorem userRange_exact_retFile :
    let p := prepare initialPlacement (Image.toC ⟨userBase, [0xc3], [⟨0, 1, 1, 0, 5⟩]⟩) 0 0 none usedSlot
    ∃ answer, userRange (some p) 0x40000000 1 true = some answer ∧
      (answer = true ↔ (0x40000000 : UInt64).toNat + (1 : UInt64).toNat ≤ userStackTop ∧
        userBase ≤ (0x40000000 : UInt64).toNat ∧
        ∀ a, (0x40000000 : UInt64).toNat ≤ a → a < (0x40000000 : UInt64).toNat + (1 : UInt64).toNat →
          Accessible p.tables true a) := by
  intro p
  obtain ⟨answer, hanswer, hiff, -⟩ := userRange_exact initialPlacement retFile _ embed_retFile 0
    (by decide) 0 none usedSlot (fun _ _ ↦ 0) 0x40000000 1 (by decide) true
  exact ⟨answer, hanswer, hiff⟩

end JordyOS.Isolation
