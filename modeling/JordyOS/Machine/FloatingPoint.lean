import JordyOS.Machine.Words
import Mathlib.Data.Fintype.Basic
import Mathlib.Tactic.NormNum

/-!
# Floating-point state

The registers of the x87 unit and of SSE, the instructions that clear them, and the image in which
`fxsave` keeps them.  The unit is a stack: `top` in the status word numbers the register that is on top,
and the image lists the registers from there on.  The pointers to the last instruction are not kept.
-/

namespace JordyOS.Machine

@[ext]
structure Fx where
  control : UInt16
  status : UInt16
  /-- One bit for each register that holds a value. -/
  tag : UInt8
  st : Fin 8 → BitVec 80
  mxcsr : UInt32
  xmm : Fin 16 → BitVec 128

namespace Fx

/-! ## Instructions -/

/-- Bits 11 to 13 of the status word. -/
def top (fx : Fx) : ℕ := fx.status.toNat / 2 ^ 11 % 8

/-- The register that is `i` below the top. -/
def physical (top i : ℕ) : Fin 8 := ⟨(top + i) % 8, Nat.mod_lt _ (by decide)⟩

def fninit (fx : Fx) : Fx := { fx with control := 0x37f, status := 0, tag := 0 }

/-- What is loaded over a register that holds a value. -/
def indefinite : BitVec 80 := 0xffffc000000000000000

/-- Zero is pushed; over a register that holds a value it is a stack overflow. -/
def fldz (fx : Fx) : Fx :=
  let register := physical fx.top 7
  let overflow := fx.tag.toNat.testBit register
  let status := fx.status &&& 0xc5ff ||| UInt16.ofNat (register * 2 ^ 11)
  { fx with
    status := if overflow then status ||| 0x241 else status
    tag := fx.tag ||| UInt8.ofNat (2 ^ (register : ℕ))
    st := Function.update fx.st register (if overflow then indefinite else 0) }

def ldmxcsr (value : UInt32) (fx : Fx) : Fx := { fx with mxcsr := value }

/-- `pxor` of a register with itself. -/
def clear (i : Fin 16) (fx : Fx) : Fx := { fx with xmm := Function.update fx.xmm i 0 }

/-- The state in which nothing of an earlier one is left. -/
def initial (mxcsr : UInt32) : Fx := ⟨0x37f, 0, 0, fun _ ↦ 0, mxcsr, fun _ ↦ 0⟩

/-! ## Clearing -/

/-- The top that is written to the status word is read from it. -/
theorem top_status (status : UInt16) {register : ℕ} (h : register < 8) :
    (status &&& 0xc5ff ||| UInt16.ofNat (register * 2 ^ 11)).toNat / 2 ^ 11 % 8 = register := by
  have hmask : (0xc5ff : UInt16).toNat / 2 ^ 11 = 24 := by decide
  have hregister : (UInt16.ofNat (register * 2 ^ 11)).toNat / 2 ^ 11 = register := by
    have hsmall : register * 2 ^ 11 < UInt16.size := by
      change register * 2 ^ 11 < 65536
      omega
    rw [UInt16.toNat_ofNat_of_lt' hsmall]
    omega
  rw [UInt16.toNat_or, UInt16.toNat_and, ← Nat.shiftRight_eq_div_pow, Nat.shiftRight_or_distrib,
    Nat.shiftRight_and_distrib, Nat.shiftRight_eq_div_pow, Nat.shiftRight_eq_div_pow,
    Nat.shiftRight_eq_div_pow, hmask, hregister]
  have hand (x : ℕ) : (x &&& 24) % 2 ^ 3 = 0 := by
    rw [Nat.and_mod_two_pow]
    exact Nat.and_zero _
  calc (status.toNat / 2 ^ 11 &&& 24 ||| register) % 2 ^ 3
      = (status.toNat / 2 ^ 11 &&& 24) % 2 ^ 3 ||| register % 2 ^ 3 := Nat.or_mod_two_pow
    _ = register := by rw [hand, Nat.zero_or, Nat.mod_eq_of_lt h]

theorem fldz_of_empty {fx : Fx} (h : fx.tag.toNat.testBit (physical fx.top 7) = false) :
    fx.fldz = { fx with
      status := fx.status &&& 0xc5ff ||| UInt16.ofNat (physical fx.top 7 * 2 ^ 11)
      tag := fx.tag ||| UInt8.ofNat (2 ^ (physical fx.top 7 : ℕ))
      st := Function.update fx.st (physical fx.top 7) 0 } := by
  unfold fldz
  simp only [h, Bool.false_eq_true, if_false]

/-- The stack holds `n` zeros and nothing else. -/
structure Filled (n : ℕ) (fx : Fx) : Prop where
  top : fx.top = (8 - n) % 8
  tag : ∀ i : Fin 8, fx.tag.toNat.testBit i = decide (8 - n ≤ i)
  st : ∀ i : Fin 8, 8 - n ≤ i → fx.st i = 0

theorem filled_fninit (fx : Fx) : Filled 0 fx.fninit where
  top := (by decide : (0 : UInt16).toNat / 2 ^ 11 % 8 = (8 - 0) % 8)
  tag i := by
    have hbelow : ¬ 8 - 0 ≤ (i : ℕ) := by omega
    rw [decide_eq_false hbelow]
    exact Nat.zero_testBit _
  st i h := absurd i.isLt (by omega)

/-- A zero is pushed below those that are there. -/
theorem Filled.fldz {n : ℕ} {fx : Fx} (h : Filled n fx) (hn : n < 8) : Filled (n + 1) fx.fldz := by
  have hregister : (physical fx.top 7 : ℕ) = 8 - (n + 1) := by
    change (fx.top + 7) % 8 = _
    rw [h.top]
    omega
  have hempty : fx.tag.toNat.testBit (physical fx.top 7 : ℕ) = false := by
    rw [h.tag, hregister, decide_eq_false]
    omega
  rw [fldz_of_empty hempty]
  refine ⟨?_, fun i ↦ ?_, fun i hi ↦ ?_⟩
  · change (fx.status &&& 0xc5ff ||| UInt16.ofNat (physical fx.top 7 * 2 ^ 11)).toNat / 2 ^ 11 % 8 = _
    rw [top_status _ (physical fx.top 7).isLt, hregister]
    omega
  · have hpower : (UInt8.ofNat (2 ^ (physical fx.top 7 : ℕ))).toNat = 2 ^ (physical fx.top 7 : ℕ) :=
      UInt8.toNat_ofNat_of_lt' (Nat.pow_lt_pow_right (by decide) (physical fx.top 7).isLt)
    change (fx.tag ||| UInt8.ofNat (2 ^ (physical fx.top 7 : ℕ))).toNat.testBit i = _
    rw [UInt8.toNat_or, Nat.testBit_or, h.tag, hpower, Nat.testBit_two_pow, hregister, ← Bool.decide_or]
    exact decide_eq_decide.mpr (by omega)
  · change Function.update fx.st (physical fx.top 7) 0 i = 0
    by_cases hi' : i = physical fx.top 7
    · rw [hi', Function.update_self]
    · rw [Function.update_of_ne hi']
      have hne : (i : ℕ) ≠ 8 - (n + 1) := fun heq ↦ hi' (Fin.ext (heq.trans hregister.symm))
      exact h.st i (by omega)

/-- Eight zeros fill the stack when it is empty at first. -/
theorem filled_fldz (fx : Fx) {n : ℕ} (hn : n ≤ 8) : Filled n (fldz^[n] fx.fninit) := by
  induction n with
  | zero => exact filled_fninit fx
  | succ n ih =>
    rw [Function.iterate_succ_apply']
    exact (ih (Nat.le_of_succ_le hn)).fldz hn

theorem foldl_clear (registers : List (Fin 16)) (fx : Fx) :
    registers.foldl (fun fx i ↦ clear i fx) fx =
      { fx with xmm := fun i ↦ if i ∈ registers then 0 else fx.xmm i } := by
  induction registers generalizing fx with
  | nil => simp
  | cons register registers ih =>
    rw [List.foldl_cons, ih]
    unfold clear
    congr 1
    funext i
    by_cases hi : i = register
    · simp [hi]
    · simp [hi]

/-! ## The image of fxsave -/

def byteAt (value i : ℕ) : UInt8 := UInt8.ofNat (value / 256 ^ i)

/-- What `fxsave` writes to its 512 bytes. -/
def image (fx : Fx) : Memory := fun k ↦
  if k < 2 then byteAt fx.control.toNat k
  else if k < 4 then byteAt fx.status.toNat (k - 2)
  else if k = 4 then fx.tag
  else if 24 ≤ k ∧ k < 28 then byteAt fx.mxcsr.toNat (k - 24)
  else if 32 ≤ k ∧ k < 160 then byteAt (fx.st (physical fx.top ((k - 32) / 16))).toNat ((k - 32) % 16)
  else if h : 160 ≤ k ∧ k < 416 then byteAt (fx.xmm ⟨(k - 160) / 16, by omega⟩).toNat ((k - 160) % 16)
  else 0

/-- What `fxrstor` reads from them. -/
def ofImage (m : Memory) : Fx :=
  let status := UInt16.ofNat (m.readWord 2 2)
  let top := status.toNat / 2 ^ 11 % 8
  { control := UInt16.ofNat (m.readWord 0 2)
    status := status
    tag := m 4
    st := fun j ↦ BitVec.ofNat 80 (m.readWord (32 + 16 * ((j + 8 - top) % 8)) 10)
    mxcsr := UInt32.ofNat (m.readWord 24 4)
    xmm := fun j ↦ BitVec.ofNat 128 (m.readWord (160 + 16 * j) 16) }

/-- The state comes back from its image. -/
theorem ofImage_image (fx : Fx) {m : Memory} (h : ∀ k < 512, m k = fx.image k) : ofImage m = fx := by
  have hword (offset size : ℕ) {value : ℕ} (hrange : offset + size ≤ 512) (hvalue : value < 256 ^ size)
      (hbytes : ∀ i < size, fx.image (offset + i) = byteAt value i) : m.readWord offset size = value :=
    (Memory.readWord_of_bytes fun i hi ↦ (h _ (by omega)).trans (hbytes i hi)).trans (Nat.mod_eq_of_lt hvalue)
  have hcontrol := hword 0 2 (by decide)
    (fx.control.toNat_lt.trans_eq (by norm_num)) fun i hi ↦ by
    unfold image
    rw [if_pos (by omega), Nat.zero_add]
  have hstatus := hword 2 2 (by decide)
    (fx.status.toNat_lt.trans_eq (by norm_num)) fun i hi ↦ by
    unfold image
    rw [if_neg (by omega), if_pos (by omega), Nat.add_sub_cancel_left]
  have hmxcsr := hword 24 4 (by decide)
    (fx.mxcsr.toNat_lt.trans_eq (by norm_num)) fun i hi ↦ by
    unfold image
    rw [if_neg (by omega), if_neg (by omega), if_neg (by omega), if_pos (by omega), Nat.add_sub_cancel_left]
  have hst (i : ℕ) (hi : i < 8) := hword (32 + 16 * i) 10
    (by omega) ((fx.st (physical fx.top i)).isLt.trans_eq (by norm_num)) fun k hk ↦ by
      have hslot : (32 + 16 * i + k - 32) / 16 = i := by omega
      have hplace : (32 + 16 * i + k - 32) % 16 = k := by omega
      unfold image
      rw [if_neg (by omega), if_neg (by omega), if_neg (by omega), if_neg (by omega), if_pos (by omega), hslot,
        hplace]
  have hxmm (i : Fin 16) := hword (160 + 16 * i) 16 (by omega)
    ((fx.xmm i).isLt.trans_eq (by norm_num)) fun k hk ↦ by
      have hslot : (⟨(160 + 16 * (i : ℕ) + k - 160) / 16, by omega⟩ : Fin 16) = i := Fin.ext (by dsimp only; omega)
      have hplace : (160 + 16 * (i : ℕ) + k - 160) % 16 = k := by omega
      unfold image
      rw [if_neg (by omega), if_neg (by omega), if_neg (by omega), if_neg (by omega), if_neg (by omega),
        dif_pos (by omega), hslot, hplace]
  have htag : m 4 = fx.tag := (h 4 (by decide)).trans rfl
  have htop : (UInt16.ofNat (m.readWord 2 2)).toNat / 2 ^ 11 % 8 = fx.top := by
    rw [hstatus, UInt16.ofNat_toNat]
    rfl
  refine Fx.ext ?_ ?_ htag (funext fun j ↦ ?_) ?_ (funext fun j ↦ ?_)
  · change UInt16.ofNat (m.readWord 0 2) = _
    rw [hcontrol, UInt16.ofNat_toNat]
  · change UInt16.ofNat (m.readWord 2 2) = _
    rw [hstatus, UInt16.ofNat_toNat]
  · have hregister : physical fx.top ((j + 8 - fx.top) % 8) = j := by
      refine Fin.ext ?_
      have hlt : fx.top < 8 := Nat.mod_lt _ (by decide)
      change (fx.top + (j + 8 - fx.top) % 8) % 8 = j
      omega
    change BitVec.ofNat 80 (m.readWord (32 + 16 * ((j + 8 -
      (UInt16.ofNat (m.readWord 2 2)).toNat / 2 ^ 11 % 8) % 8)) 10) = fx.st j
    rw [htop, hst _ (Nat.mod_lt _ (by decide)), hregister, BitVec.ofNat_toNat, BitVec.setWidth_eq]
  · change UInt32.ofNat (m.readWord 24 4) = _
    rw [hmxcsr, UInt32.ofNat_toNat]
  · change BitVec.ofNat 128 (m.readWord (160 + 16 * j) 16) = fx.xmm j
    rw [hxmm, BitVec.ofNat_toNat, BitVec.setWidth_eq]

end Fx

end JordyOS.Machine
