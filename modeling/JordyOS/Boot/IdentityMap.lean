import JordyOS.Isolation.Separation
import JordyOS.Machine.AddressSpace

/-!
# The first page tables

The tables that `kernel_entry.asm` builds below the kernel before it turns on paging, in whatever memory holds
there, and the map that they make; and the same map in the tables of a process.
-/

namespace JordyOS.Boot

open Machine Paging
open JordyOS.Isolation (Placement)

/-! ## The code -/

def pml4 : ℕ := 0x80000

def pdpt : ℕ := 0x81000

def pd : ℕ := 0x82000

/-- `rep stosd` with `ecx` in the last argument. -/
def stosd (eax : UInt32) : (m : Memory) → (edi ecx : ℕ) → Memory
  | m, _, 0 => m
  | m, edi, ecx + 1 => stosd eax (m.writeWord edi 4 eax.toNat) (edi + 4) ecx

/-- The loop at `.map`. -/
def map : (m : Memory) → (eax : UInt32) → (edi ecx : ℕ) → Memory
  | m, _, _, 0 => m
  | m, eax, edi, ecx + 1 => map (m.writeWord edi 4 eax.toNat) (eax + 0x200000) (edi + 8) ecx

def buildTables (m : Memory) : Memory :=
  let m := stosd 0 m pml4 (3 * 4096 / 4)
  let m := m.writeWord pml4 4 (pdpt ||| 3)
  let m := m.writeWord pdpt 4 (pd ||| 3)
  map m 0x83 pd 16

/-! ## The entries -/

variable {m : Memory}

/-- Four bytes and four more. -/
theorem readWord_eight (m : Memory) (a : ℕ) :
    m.readWord a 8 = m.readWord a 4 + 2 ^ 32 * m.readWord (a + 4) 4 := by
  simp only [Memory.readWord]
  ring

theorem stosd_outside (m : Memory) {edi a : ℕ} (ecx : ℕ) (h : a < edi ∨ edi + 4 * ecx ≤ a) :
    stosd 0 m edi ecx a = m a := by
  induction ecx generalizing m edi with
  | zero => rfl
  | succ ecx ih => rw [stosd, ih _ (by omega), Memory.writeWord_of_outside _ _ (by omega)]

theorem stosd_inside (m : Memory) {edi a ecx : ℕ} (hlow : edi ≤ a) (hhigh : a < edi + 4 * ecx) :
    stosd 0 m edi ecx a = 0 := by
  induction ecx generalizing m edi with
  | zero => omega
  | succ ecx ih =>
    rw [stosd]
    by_cases h : a < edi + 4
    · rw [stosd_outside _ _ (Or.inl h)]
      unfold Memory.writeWord
      rw [if_pos ⟨hlow, h⟩]
      simp
    · exact ih _ (by omega) (by omega)

theorem map_outside (m : Memory) (eax : UInt32) {edi a : ℕ} (ecx : ℕ)
    (h : ∀ i < ecx, a < edi + 8 * i ∨ edi + 8 * i + 4 ≤ a) : map m eax edi ecx a = m a := by
  induction ecx generalizing m eax edi with
  | zero => rfl
  | succ ecx ih =>
    have hfirst := h 0 (Nat.succ_pos ecx)
    rw [map, ih _ _ fun i hi ↦ ?_, Memory.writeWord_of_outside _ _ (by omega)]
    have hnext := h (i + 1) (by omega)
    omega

/-- The loop puts down an arithmetic progression. -/
theorem readWord_map (m : Memory) (eax : UInt32) {edi i ecx : ℕ} (hi : i < ecx) :
    (map m eax edi ecx).readWord (edi + 8 * i) 4 = (eax + 0x200000 * UInt32.ofNat i).toNat := by
  induction ecx generalizing m eax edi i with
  | zero => omega
  | succ ecx ih =>
    rw [map]
    cases i with
    | zero =>
      have hlt : eax.toNat < 256 ^ 4 := eax.toNat_lt.trans_eq (by norm_num)
      have hsame : (map (m.writeWord edi 4 eax.toNat) (eax + 0x200000) (edi + 8) ecx).readWord edi 4 =
          (m.writeWord edi 4 eax.toNat).readWord edi 4 :=
        Memory.readWord_congr fun a _ _ ↦ map_outside _ _ _ fun i _ ↦ Or.inl (by omega)
      have hzero : eax + 0x200000 * UInt32.ofNat 0 = eax := by simp
      have hplace : edi + 8 * 0 = edi := by omega
      rw [hzero, hplace, hsame, Memory.readWord_writeWord, Nat.mod_eq_of_lt hlt]
    | succ i =>
      have hplace : edi + 8 * (i + 1) = edi + 8 + 8 * i := by omega
      have hvalue : eax + 0x200000 + 0x200000 * UInt32.ofNat i = eax + 0x200000 * UInt32.ofNat (i + 1) := by
        have hone : (0x200000 : UInt32) * UInt32.ofNat 1 = 0x200000 := by decide
        rw [UInt32.ofNat_add, UInt32.mul_add, hone, UInt32.add_assoc, UInt32.add_comm 0x200000]
      rw [hplace, ih _ _ (by omega), hvalue]

theorem readWord_zero {a size : ℕ} (h : ∀ b, a ≤ b → b < a + size → m b = 0) : m.readWord a size = 0 := by
  refine (Memory.readWord_of_bytes fun i hi ↦ ?_).trans (Nat.zero_mod _)
  rw [h (a + i) (by omega) (by omega), Nat.zero_div]
  rfl

theorem word_of_dwords {a low : ℕ} (hlow : m.readWord a 4 = low) (hhigh : m.readWord (a + 4) 4 = 0) :
    m.word a = UInt64.ofNat low := by
  unfold Memory.word
  rw [readWord_eight, hlow, hhigh, Nat.mul_zero, Nat.add_zero]

/-- The tables before the loop. -/
def linkedTables (m : Memory) : Memory :=
  ((stosd 0 m pml4 (3 * 4096 / 4)).writeWord pml4 4 (pdpt ||| 3)).writeWord pdpt 4 (pd ||| 3)

theorem buildTables_eq (m : Memory) : buildTables m = map (linkedTables m) 0x83 pd 16 := rfl

theorem linkedTables_zero (m : Memory) {a : ℕ} (hlow : 0x80000 ≤ a) (hhigh : a < 0x83000)
    (hroot : a < 0x80000 ∨ 0x80004 ≤ a) (hpdpt : a < 0x81000 ∨ 0x81004 ≤ a) : linkedTables m a = 0 := by
  unfold linkedTables pml4 pdpt
  rw [Memory.writeWord_of_outside _ _ (by omega), Memory.writeWord_of_outside _ _ (by omega)]
  exact stosd_inside m hlow (by omega)

/-- An entry that the loop does not write. -/
theorem word_linked (m : Memory) {a : ℕ} (hlow : 0x80000 ≤ a) (hhigh : a + 8 ≤ 0x83000) (haligned : a % 8 = 0) :
    (linkedTables m).word a = if a = pml4 then 0x81003 else if a = pdpt then 0x82003 else 0 := by
  have hupper : (linkedTables m).readWord (a + 4) 4 = 0 :=
    readWord_zero fun b _ _ ↦ linkedTables_zero m (by omega) (by omega) (by omega) (by omega)
  by_cases hroot : a = pml4
  · rw [if_pos hroot]
    refine word_of_dwords ?_ hupper
    rw [hroot]
    unfold linkedTables
    have happart : pml4 + 4 ≤ pdpt ∨ pdpt + 4 ≤ pml4 := by decide
    rw [Memory.readWord_writeWord_of_apart _ _ happart, Memory.readWord_writeWord]
    decide
  · rw [if_neg hroot]
    by_cases hpdpt : a = pdpt
    · rw [if_pos hpdpt]
      refine word_of_dwords ?_ hupper
      rw [hpdpt]
      unfold linkedTables
      rw [Memory.readWord_writeWord]
      decide
    · rw [if_neg hpdpt]
      unfold pml4 at hroot
      unfold pdpt at hpdpt
      exact word_of_dwords (readWord_zero fun b _ _ ↦ linkedTables_zero m (by omega) (by omega) (by omega) (by omega))
        hupper

/-- The first two tables. -/
theorem framesOf_upper (m : Memory) {table i : ℕ} (htable : table = pml4 ∨ table = pdpt) (hi : i < 512) :
    framesOf (buildTables m) table i =
      if i = 0 then (if table = pml4 then 0x81003 else 0x82003) else 0 := by
  have hbelow : table + 8 * i + 8 ≤ pd := by
    rcases htable with rfl | rfl
    · unfold pml4 pd
      omega
    · unfold pdpt pd
      omega
  have hrange : 0x80000 ≤ table + 8 * i ∧ (table + 8 * i) % 8 = 0 := by
    rcases htable with rfl | rfl
    · unfold pml4
      omega
    · unfold pdpt
      omega
  have hsame : (buildTables m).word (table + 8 * i) = (linkedTables m).word (table + 8 * i) :=
    Memory.word_congr fun a _ _ ↦ map_outside _ _ _ fun k _ ↦ Or.inl (by omega)
  unfold framesOf
  unfold pd at hbelow
  rw [hsame, word_linked m hrange.1 (by omega) hrange.2]
  rcases htable with rfl | rfl
  · unfold pml4 pdpt at *
    by_cases h : i = 0
    · rw [if_pos (by omega), if_pos h, if_pos rfl]
    · rw [if_neg (by omega), if_neg (by omega), if_neg h]
  · unfold pml4 pdpt at *
    by_cases h : i = 0
    · rw [if_neg (by omega), if_pos (by omega), if_pos h, if_neg (by decide)]
    · rw [if_neg (by omega), if_neg (by omega), if_neg h]

/-- The directory. -/
theorem framesOf_pd (m : Memory) {i : ℕ} (hi : i < 512) :
    framesOf (buildTables m) pd i = if i < 16 then UInt64.ofNat (0x83 + 0x200000 * i) else 0 := by
  unfold framesOf
  rw [buildTables_eq]
  by_cases h : i < 16
  · rw [if_pos h]
    refine word_of_dwords ?_ (readWord_zero fun b _ _ ↦ ?_)
    · have hvalue : ∀ i < 16, ((0x83 : UInt32) + 0x200000 * UInt32.ofNat i).toNat = 0x83 + 0x200000 * i := by decide
      rw [readWord_map _ _ h, hvalue i h]
    · unfold pd at *
      rw [map_outside _ _ _ fun k _ ↦ by omega]
      exact linkedTables_zero m (by omega) (by omega) (by omega) (by omega)
  · rw [if_neg h]
    unfold pd
    have hsame : (map (linkedTables m) 0x83 0x82000 16).word (0x82000 + 8 * i) =
        (linkedTables m).word (0x82000 + 8 * i) :=
      Memory.word_congr fun a _ _ ↦ map_outside _ _ _ fun k _ ↦ Or.inr (by omega)
    rw [hsame, word_linked m (by omega) (by omega) (by omega)]
    unfold pml4 pdpt
    rw [if_neg (by omega), if_neg (by omega)]

/-! ## The map -/

/-- The first 32 MiB lie where they are, for the kernel only. -/
def identity (v : ℕ) : Option Translation := if v < 8192 then some ⟨v * 4096, false, true, true⟩ else none

/-- The walk through a directory like that of the boot code. -/
theorem walk_directory {frames : Frames} (hpd : ∀ i < 512, frames pd i =
    if i < 16 then UInt64.ofNat (0x83 + 0x200000 * i) else 0) {v : ℕ} (hv : v < 2 ^ 18) :
    walkFrom frames v 1 pd = identity v := by
  have hindex : index v 1 = v / 512 := by
    change v / 512 ^ 1 % 512 = v / 512
    omega
  have hentry := hpd (v / 512) (by omega)
  unfold identity
  by_cases h : v < 8192
  · rw [if_pos (by omega)] at hentry
    have hrights : ∀ i < 16, present (UInt64.ofNat (0x83 + 0x200000 * i)) = true ∧
        large (UInt64.ofNat (0x83 + 0x200000 * i)) = true ∧ user (UInt64.ofNat (0x83 + 0x200000 * i)) = false ∧
        writable (UInt64.ofNat (0x83 + 0x200000 * i)) = true ∧
        noExecute (UInt64.ofNat (0x83 + 0x200000 * i)) = false ∧
        frame (UInt64.ofNat (0x83 + 0x200000 * i)) = 0x200000 * i := by decide
    obtain ⟨hpresent, hlarge, huser, hwritable, hexecute, hframe⟩ := hrights (v / 512) (by omega)
    have hplace : 0x200000 * (v / 512) + v % 512 ^ (0 + 1) * 4096 = v * 4096 := by omega
    rw [walkFrom, hindex, hentry, if_pos hpresent, if_pos ⟨by decide, hlarge⟩, hframe, huser, hwritable, hexecute,
      hplace, if_pos h]
    rfl
  · rw [if_neg (by omega)] at hentry
    rw [if_neg h]
    refine walkFrom_of_not_present ?_
    rw [hindex, hentry]
    decide

/-- An entry that grants writing and execution hands the identity on. -/
theorem map_restrict_identity {entry : UInt64} (hwritable : writable entry = true)
    (hexecute : noExecute entry = false) (v : ℕ) :
    (identity v).map (Translation.restrict entry) = identity v := by
  unfold identity
  by_cases h : v < 8192
  · rw [if_pos h, Option.map_some]
    unfold Translation.restrict
    rw [hwritable, hexecute, Bool.and_false]
    rfl
  · rw [if_neg h]
    rfl

/-- A link of the boot code or of `prepare` to the directory. -/
theorem walkFrom_pdpt {frames : Frames} {table : ℕ} (entry : UInt64) {v : ℕ} (hv : v < 2 ^ 18)
    (hentry : frames table 0 = entry) (hpresent : present entry = true) (hlarge : large entry = false)
    (hframe : frame entry = pd) (hwritable : writable entry = true) (hexecute : noExecute entry = false)
    (hpd : ∀ i < 512, frames pd i = if i < 16 then UInt64.ofNat (0x83 + 0x200000 * i) else 0) :
    walkFrom frames v 2 table = identity v := by
  have hindex : index v 2 = 0 := by
    change v / 512 ^ 2 % 512 = 0
    omega
  rw [walkFrom_succ (by rw [hindex, hentry, hpresent]) (by rw [hindex, hentry, hlarge]), hindex, hentry, hframe,
    walk_directory hpd hv, map_restrict_identity hwritable hexecute]

/-- Whatever memory holds before, the boot code maps the first 32 MiB where they are, for the kernel only, and
no other page. -/
theorem boot_identity (m : Memory) (v : ℕ) (hv : v < 2 ^ 36) :
    walk (framesOf (buildTables m)) pml4 v = if v < 8192 then some ⟨v * 4096, false, true, true⟩ else none := by
  change _ = identity v
  have hindex : index v 3 = v / 2 ^ 27 := by
    change v / 512 ^ 3 % 512 = v / 2 ^ 27
    omega
  have hindex' : index v 2 = v / 2 ^ 18 % 512 := rfl
  have hroot := framesOf_upper m (Or.inl rfl) (i := index v 3) (Nat.mod_lt _ (by decide))
  by_cases hlow : v < 2 ^ 27
  · rw [if_pos (by omega), if_pos rfl] at hroot
    have hframe : frame 0x81003 = pdpt := by decide
    unfold walk
    rw [walkFrom_succ (by rw [hroot]; decide) (by rw [hroot]; decide), hroot, hframe]
    by_cases hkernel : v < 2 ^ 18
    · have hpdpt := framesOf_upper m (Or.inr rfl) (i := 0) (by decide)
      rw [if_pos rfl, if_neg (by decide)] at hpdpt
      rw [walkFrom_pdpt 0x82003 hkernel hpdpt (by decide) (by decide) (by decide) (by decide) (by decide)
        fun i hi ↦ framesOf_pd m hi, map_restrict_identity (by decide) (by decide)]
    · have hpdpt := framesOf_upper m (Or.inr rfl) (i := index v 2) (Nat.mod_lt _ (by decide))
      rw [if_neg (by omega)] at hpdpt
      rw [walkFrom_of_not_present (by rw [hpdpt]; decide)]
      exact (if_neg (by omega)).symm
  · rw [if_neg (by omega)] at hroot
    refine (walkFrom_of_not_present (by rw [hroot]; decide)).trans ?_
    exact (if_neg (by omega)).symm

theorem boot_identity_kernel : walk (framesOf (buildTables fun _ ↦ 0xff)) pml4 0x10 =
    if 0x10 < 8192 then some ⟨0x10 * 4096, false, true, true⟩ else none :=
  boot_identity (fun _ ↦ 0xff) 0x10 (by decide)

/-- For every accepted file, slot, mode and command: over the directory of the boot code the tables of a process
translate the addresses of the kernel in the same way, so the kernel can change to them and be interrupted
under them. -/
theorem kernel_under_process (place : Placement) (data : List UInt8) (image : Isolation.Image)
    (hembed : Isolation.embed data = .ok image) (slot : ℕ) (hslot : slot < Isolation.slots) (mode : UInt32)
    (command : Option Memory) (old : Isolation.Process) (m : Memory) (other : Frames)
    (hother : ∀ i < 512, other pd i = framesOf (buildTables m) pd i) (v : ℕ) (hv : v < 2 ^ 18) :
    walk (place.frames slot (Isolation.prepare place image.toC slot mode command old).tables other)
        (place.pml4 slot) v =
      if v < 8192 then some ⟨v * 4096, false, true, true⟩ else none := by
  change _ = identity v
  rw [Isolation.tables_prepare (Isolation.valid_of_embed hembed), Isolation.walk_pml4 hslot (by omega),
    if_pos (by omega)]
  have habove := place.above
  have hpd : ∀ t, place.frames slot t other pd = other pd := fun t ↦ by
    unfold Placement.frames Placement.process pd
    exact if_neg (by omega)
  refine walkFrom_pdpt (0x82000 ||| Isolation.P ||| Isolation.W) hv ?_ (by decide) (by decide) (by decide)
    (by decide) (by decide) fun i hi ↦ ?_
  · rw [Isolation.frames_pdpt]
    rfl
  · rw [hpd, hother i hi, framesOf_pd m hi]

theorem kernel_under_process_retFile :
    walk (Isolation.initialPlacement.frames 0
        (Isolation.prepare Isolation.initialPlacement
          (Isolation.Image.toC ⟨Isolation.userBase, [0xc3], [⟨0, 1, 1, 0, 5⟩]⟩) 0 0 none Isolation.usedSlot).tables
        (framesOf (buildTables fun _ ↦ 0))) (Isolation.initialPlacement.pml4 0) 0x10 =
      if 0x10 < 8192 then some ⟨0x10 * 4096, false, true, true⟩ else none :=
  kernel_under_process Isolation.initialPlacement Isolation.retFile _ Isolation.embed_retFile 0 (by decide) 0 none
    Isolation.usedSlot
    (fun _ ↦ 0) (framesOf (buildTables fun _ ↦ 0)) (fun _ _ ↦ rfl) 0x10 (by decide)

end JordyOS.Boot
