import Mathlib.Data.Nat.Bitwise
import Mathlib.Tactic.Common

/-!
# Four-level page tables

What the memory management unit makes of a virtual page.  It reads one entry at each level, from the
root down, and a translation has the rights that every entry on the way grants.  Physical memory is
seen here as the tables at the frame addresses.
-/

namespace JordyOS.Machine

/-- The entry at each index of the table at each physical address. -/
abbrev Frames := ℕ → ℕ → UInt64

namespace Paging

/-! ## Entries -/

def present (entry : UInt64) : Bool := entry.toNat.testBit 0

def writable (entry : UInt64) : Bool := entry.toNat.testBit 1

def user (entry : UInt64) : Bool := entry.toNat.testBit 2

/-- An entry above the last level that maps its whole range. -/
def large (entry : UInt64) : Bool := entry.toNat.testBit 7

def noExecute (entry : UInt64) : Bool := entry.toNat.testBit 63

/-- Bits 12 to 51, the physical address of the frame. -/
def frame (entry : UInt64) : ℕ := (entry.toNat >>> 12 % 2 ^ 40) <<< 12

@[simp]
theorem present_or (a b : UInt64) : present (a ||| b) = (present a || present b) := by
  simp only [present, UInt64.toNat_or, Nat.testBit_or]

@[simp]
theorem writable_or (a b : UInt64) : writable (a ||| b) = (writable a || writable b) := by
  simp only [writable, UInt64.toNat_or, Nat.testBit_or]

@[simp]
theorem user_or (a b : UInt64) : user (a ||| b) = (user a || user b) := by
  simp only [user, UInt64.toNat_or, Nat.testBit_or]

@[simp]
theorem large_or (a b : UInt64) : large (a ||| b) = (large a || large b) := by
  simp only [large, UInt64.toNat_or, Nat.testBit_or]

@[simp]
theorem noExecute_or (a b : UInt64) : noExecute (a ||| b) = (noExecute a || noExecute b) := by
  simp only [noExecute, UInt64.toNat_or, Nat.testBit_or]

@[simp]
theorem frame_or (a b : UInt64) : frame (a ||| b) = frame a ||| frame b := by
  simp only [frame, UInt64.toNat_or, Nat.shiftRight_or_distrib, Nat.or_mod_two_pow,
    Nat.shiftLeft_or_distrib]

/-- The address of a frame: a multiple of 4096 below 2^52. -/
structure IsFrame (a : UInt64) : Prop where
  aligned : a.toNat % 2 ^ 12 = 0
  small : a.toNat < 2 ^ 52

namespace IsFrame

variable {a : UInt64} (h : IsFrame a)
include h

theorem testBit_low {i : ℕ} (hi : i < 12) : a.toNat.testBit i = false := by
  have hmod := Nat.testBit_mod_two_pow a.toNat 12 i
  rw [h.aligned, Nat.zero_testBit, decide_eq_true hi, Bool.true_and] at hmod
  exact hmod.symm

@[simp]
theorem present : present a = false := h.testBit_low (by decide)

@[simp]
theorem writable : writable a = false := h.testBit_low (by decide)

@[simp]
theorem user : user a = false := h.testBit_low (by decide)

@[simp]
theorem large : large a = false := h.testBit_low (by decide)

@[simp]
theorem noExecute : noExecute a = false := by
  refine Nat.testBit_lt_two_pow (Nat.lt_trans h.small ?_)
  decide

@[simp]
theorem frame : frame a = a.toNat := by
  have hsmall := h.small
  have haligned := h.aligned
  rw [Paging.frame, Nat.shiftRight_eq_div_pow, Nat.shiftLeft_eq, Nat.mod_eq_of_lt (by omega)]
  omega

end IsFrame

/-! ## The walk -/

/-- Where a virtual page lies and what may be done there. -/
structure Translation where
  frame : ℕ
  user : Bool
  writable : Bool
  executable : Bool
  deriving DecidableEq

/-- The rights an entry leaves of those below it. -/
def Translation.restrict (entry : UInt64) (t : Translation) : Translation where
  frame := t.frame
  user := Paging.user entry && t.user
  writable := Paging.writable entry && t.writable
  executable := !noExecute entry && t.executable

/-- The index that a page has in the tables of a level. -/
def index (page level : ℕ) : ℕ := page / 512 ^ level % 512

/-- The walk from the table at `table` down; level 0 holds the leaves.  Entries of level 1 and 2 may be
leaves too. -/
def walkFrom (frames : Frames) (page : ℕ) : ℕ → ℕ → Option Translation
  | 0, table =>
    let entry := frames table (index page 0)
    if present entry then
      some ⟨frame entry, user entry, writable entry, !noExecute entry⟩
    else none
  | level + 1, table =>
    let entry := frames table (index page (level + 1))
    if present entry then
      if level < 2 ∧ large entry then
        some ⟨frame entry + page % 512 ^ (level + 1) * 4096, user entry, writable entry, !noExecute entry⟩
      else (walkFrom frames page level (frame entry)).map (Translation.restrict entry)
    else none

/-- The translation of a page under the root table. -/
def walk (frames : Frames) (root page : ℕ) : Option Translation := walkFrom frames page 3 root

variable {frames : Frames} {page level table : ℕ}

/-- An entry that points to a table hands the walk on. -/
theorem walkFrom_succ (hpresent : present (frames table (index page (level + 1))) = true)
    (hlarge : large (frames table (index page (level + 1))) = false) :
    walkFrom frames page (level + 1) table =
      (walkFrom frames page level (frame (frames table (index page (level + 1))))).map
        (Translation.restrict (frames table (index page (level + 1)))) := by
  rw [walkFrom, if_pos hpresent, if_neg (by rw [hlarge]; simp)]

theorem walkFrom_of_not_present (h : present (frames table (index page level)) = false) :
    walkFrom frames page level table = none := by
  cases level with
  | zero => rw [walkFrom, if_neg (by rw [h]; decide)]
  | succ level => rw [walkFrom, if_neg (by rw [h]; decide)]

theorem walkFrom_zero (h : present (frames table (index page 0)) = true) :
    walkFrom frames page 0 table = some
      ⟨frame (frames table (index page 0)), user (frames table (index page 0)),
        writable (frames table (index page 0)), !noExecute (frames table (index page 0))⟩ := by
  rw [walkFrom, if_pos h]

/-- Below a supervisor entry nothing is user-accessible, whatever the tables there say. -/
theorem walkFrom_supervisor (h : user (frames table (index page level)) = false) {t : Translation}
    (ht : walkFrom frames page level table = some t) : t.user = false := by
  cases level with
  | zero =>
    rw [walkFrom, Option.ite_none_right_eq_some, Option.some.injEq] at ht
    rw [← ht.2]
    exact h
  | succ level =>
    rw [walkFrom, Option.ite_none_right_eq_some] at ht
    replace ht := ht.2
    split at ht
    · rw [← Option.some.inj ht]
      exact h
    · obtain ⟨below, -, hbelow⟩ := Option.map_eq_some_iff.mp ht
      rw [← hbelow, Translation.restrict, h, Bool.false_and]

end Paging

end JordyOS.Machine
