import JordyOS.Bpf.Sandbox
import Mathlib.Data.Set.BooleanAlgebra
import Mathlib.Order.CompletePartialOrder

/-!
# Address translation

The virtual addresses of the interpreter as numbers.  An address of a map value is made of the map, the
index of the element and the offset in it; `lookup` puts the three together and `memory` takes them
apart again.
-/

namespace JordyOS.Bpf

open Machine

/-! ## Translation of numbers -/

/-- The first address of the values. -/
def valuesBase : ℕ := 0x40000000

/-- The address of an offset in an element of a map. -/
def valueAddress (id index within : ℕ) : ℕ := valuesBase + id * 0x100000 + index * 256 + within

/-- The byte an address of the values stands for, when `size` bytes may be accessed there. -/
def valuePointer (e : BpfEnvironment) (address size : ℕ) (write : Bool) : Option Pointer :=
  if h : (address - valuesBase) / 0x100000 < bpfMaps then
    let m := e.maps ⟨(address - valuesBase) / 0x100000, h⟩
    let index := (address - valuesBase) / 256 % 4096
    let within := (address - valuesBase) % 256
    if m.values ≠ none ∧ m.valueSize.toNat ≤ 256 ∧ index < m.capacity.toNat ∧
        within + size ≤ m.valueSize.toNat ∧ (write = true → m.writable = true) then
      some ⟨.values ⟨(address - valuesBase) / 0x100000, h⟩, index * m.valueSize.toNat + within⟩
    else none
  else none

/-- The `size` bytes at `address` lie in the region of `limit` bytes at `base`. -/
def Spans (base limit address size : ℕ) : Prop := base ≤ address ∧ address + size ≤ base + limit

instance (base limit address size : ℕ) : Decidable (Spans base limit address size) :=
  inferInstanceAs (Decidable (_ ∧ _))

/-- What `memory` answers in the environment `e`. -/
def translate (e : BpfEnvironment) (address size : ℕ) (write : Bool) : Option Pointer :=
  if Spans bpfStack.toNat 512 address size then some ⟨.stack, address - bpfStack.toNat⟩
  else if write = false ∧ Spans bpfCtx.toNat e.contextSize.toNat address size then
    some ⟨.context, address - bpfCtx.toNat⟩
  else if write = false ∧ Spans bpfData.toNat e.packetSize.toNat address size then
    some ⟨.packet, address - bpfData.toNat⟩
  else if address < valuesBase then none
  else valuePointer e address size write

theorem covers_eq {base address limit size : UInt64} :
    covers base address limit size =
      decide (Spans base.toNat limit.toNat address.toNat size.toNat) := by
  unfold covers
  rw [Bool.eq_iff_iff, Bool.and_eq_true, Bool.and_eq_true, decide_eq_true_iff, decide_eq_true_iff,
    decide_eq_true_iff, decide_eq_true_iff]
  constructor
  · rintro ⟨⟨hbase, hoffset⟩, hsize⟩
    rw [UInt64.le_iff_toNat_le, UInt64.toNat_sub_of_le _ _ hoffset,
      UInt64.toNat_sub_of_le _ _ hbase] at hsize
    rw [UInt64.le_iff_toNat_le, UInt64.toNat_sub_of_le _ _ hbase] at hoffset
    have hbase' := UInt64.le_iff_toNat_le.mp hbase
    exact ⟨hbase', by omega⟩
  · rintro ⟨hbase, hlimit⟩
    have hbase' : base ≤ address := UInt64.le_iff_toNat_le.mpr hbase
    have hoffset : address - base ≤ limit := by
      rw [UInt64.le_iff_toNat_le, UInt64.toNat_sub_of_le _ _ hbase']
      omega
    refine ⟨⟨hbase', hoffset⟩, ?_⟩
    rw [UInt64.le_iff_toNat_le, UInt64.toNat_sub_of_le _ _ hoffset, UInt64.toNat_sub_of_le _ _ hbase']
    omega

variable {vm : Vm} {e : BpfEnvironment}

/-- The source computes with the offset in 32 bits. -/
theorem toNat_place {address : UInt64} (hlow : ¬ address < bpfValues)
    (hhigh : ¬ address ≥ bpfValues + 7 * 0x100000) :
    ((address - bpfValues).toUInt32 >>> 20).toNat = (address.toNat - valuesBase) / 0x100000 ∧
    (((address - bpfValues).toUInt32 &&& 0xfffff) >>> 8).toNat =
      (address.toNat - valuesBase) / 256 % 4096 ∧
    (((address - bpfValues).toUInt32 &&& 0xfffff) &&& 255).toNat =
      (address.toNat - valuesBase) % 256 := by
  have hbase : bpfValues.toNat = valuesBase := rfl
  have hlimit : (bpfValues + 7 * 0x100000).toNat = 0x40700000 := rfl
  have hvalue : valuesBase = 0x40000000 := rfl
  have hoffset := UInt64.toNat_sub_of_le _ _ (UInt64.not_lt.mp hlow)
  have hhigh' := UInt64.not_le.mp hhigh
  rw [UInt64.lt_iff_toNat_lt, hlimit] at hhigh'
  have htwenty : (20 : UInt32).toNat % 32 = 20 := rfl
  have height : (8 : UInt32).toNat % 32 = 8 := rfl
  have hplace : (address - bpfValues).toUInt32.toNat = address.toNat - valuesBase := by
    rw [UInt64.toNat_toUInt32, hoffset, hbase]
    omega
  have hmask : ((address - bpfValues).toUInt32 &&& 0xfffff).toNat =
      (address.toNat - valuesBase) % 0x100000 := by
    rw [UInt32.toNat_and, hplace]
    exact Nat.and_two_pow_sub_one_eq_mod _ 20
  refine ⟨?_, ?_, ?_⟩
  · rw [UInt32.toNat_shiftRight, hplace, htwenty, Nat.shiftRight_eq_div_pow]
  · rw [UInt32.toNat_shiftRight, hmask, height, Nat.shiftRight_eq_div_pow]
    omega
  · have hwithin : (((address - bpfValues).toUInt32 &&& 0xfffff) &&& 255).toNat =
        ((address - bpfValues).toUInt32 &&& 0xfffff).toNat % 256 :=
      (UInt32.toNat_and _ 255).trans (Nat.and_two_pow_sub_one_eq_mod _ 8)
    rw [hwithin, hmask]
    omega

theorem value_granted_iff {m : BpfMap} {index within size : UInt32} {write : Bool} :
    ¬ (m.values = none ∨ m.valueSize > 256 ∨ index ≥ m.capacity ∨ within > m.valueSize ∨
      size > m.valueSize - within ∨ (write = true ∧ m.writable = false)) ↔
    m.values ≠ none ∧ m.valueSize.toNat ≤ 256 ∧ index.toNat < m.capacity.toNat ∧
      within.toNat + size.toNat ≤ m.valueSize.toNat ∧ (write = true → m.writable = true) := by
  have hlimit : (256 : UInt32).toNat = 256 := rfl
  simp only [not_or, not_and, gt_iff_lt, ge_iff_le, UInt32.not_lt, UInt32.not_le, Bool.not_eq_false]
  rw [UInt32.le_iff_toNat_le, UInt32.lt_iff_toNat_lt, hlimit]
  have hfit : (within ≤ m.valueSize ∧ size ≤ m.valueSize - within) ↔
      within.toNat + size.toNat ≤ m.valueSize.toNat := by
    constructor
    · rintro ⟨hwithin, hsize⟩
      rw [UInt32.le_iff_toNat_le, UInt32.toNat_sub_of_le _ _ hwithin] at hsize
      rw [UInt32.le_iff_toNat_le] at hwithin
      omega
    · intro hle
      have hwithin : within ≤ m.valueSize := UInt32.le_iff_toNat_le.mpr (by omega)
      refine ⟨hwithin, ?_⟩
      rw [UInt32.le_iff_toNat_le, UInt32.toNat_sub_of_le _ _ hwithin]
      omega
  rw [← hfit, and_assoc]

theorem not_and_covers_iff {base address limit size : UInt64} {write : Bool} :
    (!write && covers base address limit size) = true ↔
      write = false ∧ Spans base.toNat limit.toNat address.toNat size.toNat := by
  rw [Bool.and_eq_true, Bool.not_eq_true', covers_eq, decide_eq_true_iff]

/-- `memory` as a function of the environment and the numbers. -/
theorem memory_returns (address : UInt64) (size : UInt32) (write : Bool) :
    Returns (memory address size write) vm
      (translate vm.environment address.toNat size.toNat write) vm := by
  have hsize : size.toUInt64.toNat = size.toNat := UInt32.toNat_toUInt64 size
  have hsub : ∀ {base : UInt64} {limit : ℕ}, Spans base.toNat limit address.toNat size.toNat →
      (address - base).toNat = address.toNat - base.toNat := fun hspans ↦
    UInt64.toNat_sub_of_le _ _ (UInt64.le_iff_toNat_le.mpr hspans.1)
  refine Returns.bind Returns.get (Returns.ite ?_ (fun hspans ↦ ?_) fun _ ↦ ?_)
  · rw [covers_eq, decide_eq_true_iff, hsize]
    rfl
  · exact Returns.pure_of_eq (by rw [hsub hspans])
  refine Returns.ite ?_ (fun hspans ↦ ?_) fun _ ↦ ?_
  · rw [not_and_covers_iff, hsize, UInt32.toNat_toUInt64]
  · exact Returns.pure_of_eq (by rw [hsub hspans.2])
  refine Returns.ite ?_ (fun hspans ↦ ?_) fun _ ↦ ?_
  · rw [not_and_covers_iff, hsize, UInt32.toNat_toUInt64]
  · exact Returns.pure_of_eq (by rw [hsub hspans.2])
  by_cases hlow : address < bpfValues
  · have hbelow : address.toNat < valuesBase := UInt64.lt_iff_toNat_lt.mp hlow
    rw [if_pos hbelow]
    exact Returns.ite_pos (Or.inl hlow) Returns.pure
  have habove : ¬ address.toNat < valuesBase := fun h ↦ hlow (UInt64.lt_iff_toNat_lt.mpr h)
  rw [if_neg habove]
  unfold valuePointer
  by_cases hhigh : address ≥ bpfValues + 7 * 0x100000
  · have hlimit : (bpfValues + 7 * 0x100000).toNat = 0x40700000 := rfl
    have hmaps : bpfMaps = 7 := rfl
    have hvalue : valuesBase = 0x40000000 := rfl
    have hhigh' := UInt64.le_iff_toNat_le.mp hhigh
    have hid : ¬ (address.toNat - valuesBase) / 0x100000 < bpfMaps := by omega
    rw [dif_neg hid]
    exact Returns.ite_pos (Or.inr hhigh) Returns.pure
  obtain ⟨hid, hindex, hwithin⟩ := toNat_place hlow hhigh
  have hlt := toNat_mapId_lt hlow hhigh
  have hmap : Returns (mapIndex ((address - bpfValues).toUInt32 >>> 20).toNat) vm
      ⟨(address.toNat - valuesBase) / 0x100000, hid ▸ hlt⟩ vm := by
    rw [mapIndex, dif_pos hlt]
    exact Returns.pure_of_eq (Fin.ext hid)
  rw [dif_pos (hid ▸ hlt)]
  refine Returns.ite_neg (not_or.mpr ⟨hlow, hhigh⟩) (Returns.bind hmap ?_)
  rw [← ite_not]
  refine Returns.ite ?_ (fun hgranted ↦ ?_) fun _ ↦ Returns.pure
  · rw [value_granted_iff, hindex, hwithin]
  · refine Returns.pure_of_eq ?_
    obtain ⟨-, hsize, -, -, -⟩ := hgranted
    have hindex' := toNat_index_le (address - bpfValues).toUInt32
    rw [hwithin, UInt32.toNat_mul, ← hindex, Nat.mod_eq_of_lt]
    calc _ ≤ 4095 * 256 := Nat.mul_le_mul hindex' hsize
      _ < 2 ^ 32 := by decide

/-! ## Programs that only read -/

section ReadOnly

variable {α β : Type}

/-- Whatever the program answers, the state stays as it is. -/
def ReadOnly (x : Exec α) : Prop := ∀ vm, Ensures x vm (fun _ t ↦ t = vm) fun _ t ↦ t = vm

variable {x : Exec α} {f : α → Exec β}

theorem ReadOnly.pure (a : α) : ReadOnly (Pure.pure a) := fun _ ↦ rfl

theorem ReadOnly.throw (h : Halt) : ReadOnly (MonadExcept.throw h : Exec α) := fun _ ↦ rfl

theorem ReadOnly.get : ReadOnly MonadState.get := fun _ ↦ rfl

theorem ReadOnly.bind (hx : ReadOnly x) (hf : ∀ a, ReadOnly (f a)) : ReadOnly (x >>= f) := by
  intro vm
  refine Ensures.bind ((hx vm).mono ?_ fun _ _ ht ↦ ht)
  rintro a _ rfl
  exact hf a _

theorem ReadOnly.ite {y : Exec α} {p : Prop} [Decidable p] (htrue : ReadOnly x)
    (hfalse : ReadOnly y) : ReadOnly (if p then x else y) := fun vm ↦
  Ensures.ite (fun _ ↦ htrue vm) fun _ ↦ hfalse vm

theorem ReadOnly.foldlM {step : β → α → Exec β} {l : List α} {b : β}
    (hstep : ∀ c a, ReadOnly (step c a)) : ReadOnly (l.foldlM step b) := by
  induction l generalizing b with
  | nil => exact ReadOnly.pure b
  | cons a l ih =>
    rw [List.foldlM_cons]
    exact ReadOnly.bind (hstep b a) fun _ ↦ ih

theorem ReadOnly.allM {test : α → Exec Bool} {l : List α} (htest : ∀ a, ReadOnly (test a)) :
    ReadOnly (l.allM test) := by
  induction l with
  | nil => exact ReadOnly.pure true
  | cons a l ih =>
    refine ReadOnly.bind (htest a) fun result ↦ ?_
    cases result with
    | true => exact ih
    | false => exact ReadOnly.pure false

/-- What a reading program answered can be used in what follows. -/
theorem ReadOnly.ensures (hx : ReadOnly x) {post : β → Vm → Prop} {halt : Halt → Vm → Prop}
    (hf : ∀ a, Returns x vm a vm → Ensures (f a) vm post halt) (hhalt : ∀ h, halt h vm) :
    Ensures (x >>= f) vm post halt := by
  refine Ensures.bind ?_
  have hstay := hx vm
  unfold Ensures at hstay ⊢
  cases hrun : x vm with
  | ok a t =>
    rw [hrun] at hstay
    obtain rfl : t = vm := hstay
    exact hf a hrun
  | error h t =>
    rw [hrun] at hstay
    obtain rfl : t = vm := hstay
    exact hhalt h

theorem readOnly_load (p : Pointer) (i : ℕ) : ReadOnly (load p i) := by
  refine ReadOnly.bind ReadOnly.get fun t ↦ ?_
  cases (t.bytes p.region).bind (·[p.offset + i]?) with
  | some byte => exact ReadOnly.pure byte
  | none => exact ReadOnly.throw _

theorem readOnly_readLe (p : Pointer) (size : ℕ) : ReadOnly (readLe p size) :=
  ReadOnly.foldlM fun _ i ↦ ReadOnly.bind (readOnly_load p i) fun _ ↦ ReadOnly.pure _

theorem readOnly_memory (address : UInt64) (size : UInt32) (write : Bool) :
    ReadOnly (memory address size write) := fun _ ↦ (memory_returns address size write).ensures rfl

theorem readOnly_longestPrefix (id : Fin bpfMaps) (entries : ℕ) (key : Pointer) (index : UInt32) :
    ReadOnly (longestPrefix id entries key index) := by
  refine ReadOnly.foldlM fun best i ↦ ReadOnly.bind (readOnly_readLe _ 4) fun bits ↦ ?_
  refine ReadOnly.ite (ReadOnly.pure best) (ReadOnly.bind (ReadOnly.allM fun b ↦ ?_) fun same ↦ ?_)
  · exact ReadOnly.bind (readOnly_load _ _) fun _ ↦ ReadOnly.bind (readOnly_load _ _) fun _ ↦
      ReadOnly.pure _
  · exact ReadOnly.ite (ReadOnly.pure _) (ReadOnly.pure best)

end ReadOnly

/-! ## Addresses of elements -/

/-- The address `lookup` gives out for an element. -/
def elementAddress (id : Fin bpfMaps) (k : UInt32) : UInt64 :=
  bpfValues + UInt64.ofNat id * 0x100000 + k.toUInt64 * 256

theorem toNat_elementAddress (id : Fin bpfMaps) {k : UInt32} (hk : k.toNat < 4096) :
    (elementAddress id k).toNat = valueAddress id k.toNat 0 := by
  have hbase : bpfValues.toNat = 0x40000000 := rfl
  have hmillion : (0x100000 : UInt64).toNat = 0x100000 := rfl
  have hpage : (256 : UInt64).toNat = 256 := rfl
  have hid := id.isLt
  have hmaps : bpfMaps = 7 := rfl
  rw [elementAddress, UInt64.toNat_add, UInt64.toNat_add, UInt64.toNat_mul, UInt64.toNat_mul,
    UInt64.toNat_ofNat', UInt32.toNat_toUInt64, hbase, hmillion, hpage]
  unfold valueAddress valuesBase
  omega

/-- The element a key selects: its first word, or the entry with the longest prefix. -/
def Selects (vm : Vm) (id : Fin bpfMaps) (keyAddress : UInt64) (k : UInt32) : Prop :=
  let m := vm.environment.maps id
  ∃ key index, Returns (memory keyAddress m.keySize false) vm (some key) vm ∧
    Returns (readLe key 4) vm index vm ∧
    if m.type = bpfLpm then ∃ best, k = UInt32.ofNat best.1 ∧
      Returns (longestPrefix id m.entries.toNat key index.toUInt32) vm (some best) vm
    else k = index.toUInt32

theorem element_ensures {id : Fin bpfMaps} {m : BpfMap} {k : UInt32} (hm : m.type ≠ bpfMapArray)
    {halt : Halt → Vm → Prop} : Ensures (element id m k) vm (fun r t ↦ t = vm ∧
      ∀ p, r = some p → p ≠ 0 → k.toNat < m.capacity.toNat ∧ p = elementAddress id k) halt := by
  refine Ensures.ite (fun _ ↦ Ensures.pure ⟨rfl, ?_⟩) fun hlt ↦ ?_
  · rintro _ ⟨⟩ hzero
    exact absurd rfl hzero
  refine Ensures.ite (fun harray ↦ absurd harray hm) fun _ ↦ Ensures.pure ⟨rfl, ?_⟩
  rintro _ ⟨⟩ -
  exact ⟨UInt32.lt_iff_toNat_lt.mp (UInt32.not_le.mp hlt), rfl⟩

/-- The handle of a map is in range and stands for that map. -/
theorem mapIndex_handle (id : Fin bpfMaps) :
    ¬ (bpfHandles + UInt64.ofNat id < bpfHandles ∨
      bpfHandles + UInt64.ofNat id ≥ bpfHandles + 7) ∧
    mapIndex (bpfHandles + UInt64.ofNat id - bpfHandles).toNat = pure id := by
  have hall : ∀ id : Fin bpfMaps, ¬ (bpfHandles + UInt64.ofNat id < bpfHandles ∨
      bpfHandles + UInt64.ofNat id ≥ bpfHandles + 7) ∧
      (bpfHandles + UInt64.ofNat id - bpfHandles).toNat = id := by decide +kernel
  obtain ⟨hrange, hid⟩ := hall id
  refine ⟨hrange, ?_⟩
  rw [hid, mapIndex, dif_pos id.isLt]

/-- An address from `lookup` is that of the element the key selects. -/
theorem lookup_ensures {id : Fin bpfMaps} {keyAddress : UInt64}
    (hm : (vm.environment.maps id).type ≠ bpfMapArray) :
    Ensures (lookup (bpfHandles + UInt64.ofNat id) keyAddress) vm (fun r t ↦ t = vm ∧
      ∀ p, r = some p → p ≠ 0 → (vm.environment.maps id).values ≠ none ∧
        ∃ k : UInt32, Selects vm id keyAddress k ∧
          k.toNat < (vm.environment.maps id).capacity.toNat ∧ p = elementAddress id k)
      fun _ _ ↦ True := by
  obtain ⟨hhandle, hmap⟩ := mapIndex_handle id
  have hnothing : ∀ p : UInt64, (none : Option UInt64) = some p → p ≠ 0 →
      (vm.environment.maps id).values ≠ none ∧ ∃ k : UInt32, Selects vm id keyAddress k ∧
        k.toNat < (vm.environment.maps id).capacity.toNat ∧ p = elementAddress id k := by
    rintro _ ⟨⟩
  refine Ensures.ite (fun h ↦ absurd h hhandle) fun _ ↦ ?_
  rw [hmap]
  refine Ensures.bind (Ensures.pure (Ensures.bind (Ensures.get ?_)))
  refine Ensures.ite (fun _ ↦ Ensures.pure ⟨rfl, hnothing⟩) fun hchecks ↦ ?_
  have hvalues : (vm.environment.maps id).values ≠ none := fun h ↦ hchecks (Or.inl h)
  refine ReadOnly.ensures (readOnly_memory _ _ _) (fun key hkey ↦ ?_) fun _ ↦ trivial
  cases key with
  | none => exact Ensures.pure ⟨rfl, hnothing⟩
  | some key =>
    refine ReadOnly.ensures (readOnly_readLe key 4) (fun index hindex ↦ ?_) fun _ ↦ trivial
    refine Ensures.ite (fun htype ↦ ?_) fun htype ↦ ?_
    · refine Ensures.ite (fun _ ↦ Ensures.pure ⟨rfl, hnothing⟩) fun _ ↦ ?_
      refine ReadOnly.ensures (readOnly_longestPrefix _ _ _ _) (fun best hbest ↦ ?_) fun _ ↦ trivial
      cases best with
      | none =>
        refine Ensures.pure ⟨rfl, ?_⟩
        rintro _ ⟨⟩ hzero
        exact absurd rfl hzero
      | some best =>
        refine (element_ensures hm).mono (fun r t hr ↦ ⟨hr.1, fun p hp hne ↦ ?_⟩) fun _ _ h ↦ h
        obtain ⟨hlt, haddress⟩ := hr.2 p hp hne
        refine ⟨hvalues, _, ⟨key, index, hkey, hindex, ?_⟩, hlt, haddress⟩
        rw [if_pos htype]
        exact ⟨best, rfl, hbest⟩
    · refine Ensures.ite (fun _ ↦ Ensures.pure ⟨rfl, hnothing⟩) fun _ ↦ ?_
      refine (element_ensures hm).mono (fun r t hr ↦ ⟨hr.1, fun p hp hne ↦ ?_⟩) fun _ _ h ↦ h
      obtain ⟨hlt, haddress⟩ := hr.2 p hp hne
      refine ⟨hvalues, _, ⟨key, index, hkey, hindex, ?_⟩, hlt, haddress⟩
      rw [if_neg htype]

theorem not_spans_of_above {base limit address size : ℕ} (h : base + limit < address) :
    ¬ Spans base limit address size := fun hspans ↦ by
  have hlimit := hspans.2
  omega

theorem not_spans_of_below {base limit address size : ℕ} (h : address < base) :
    ¬ Spans base limit address size := fun hspans ↦ by
  have hbase := hspans.1
  omega

/-- In an environment of this size nothing but values lies above the stack. -/
theorem translate_of_above (hcontext : e.contextSize.toNat < 0x10000000)
    (hpacket : e.packetSize.toNat < 0x10000000) {address : ℕ} (h : valuesBase ≤ address) (size : ℕ)
    (write : Bool) : translate e address size write = valuePointer e address size write := by
  have hstack : bpfStack.toNat = 0x30000000 := rfl
  have hctx : bpfCtx.toNat = 0x10000000 := rfl
  have hdata : bpfData.toNat = 0x20000000 := rfl
  have hbase : valuesBase = 0x40000000 := rfl
  have hnoStack : ¬ Spans bpfStack.toNat 512 address size := not_spans_of_above (by omega)
  have hnoContext : ¬ Spans bpfCtx.toNat e.contextSize.toNat address size :=
    not_spans_of_above (by omega)
  have hnoPacket : ¬ Spans bpfData.toNat e.packetSize.toNat address size :=
    not_spans_of_above (by omega)
  unfold translate
  rw [if_neg hnoStack, if_neg fun hspans ↦ hnoContext hspans.2,
    if_neg fun hspans ↦ hnoPacket hspans.2, if_neg (Nat.not_lt.mpr h)]

theorem valuePointer_eq {id : Fin bpfMaps} {address : ℕ}
    (h : (address - valuesBase) / 0x100000 = id) (size : ℕ) (write : Bool) :
    valuePointer e address size write =
      if (e.maps id).values ≠ none ∧ (e.maps id).valueSize.toNat ≤ 256 ∧
          (address - valuesBase) / 256 % 4096 < (e.maps id).capacity.toNat ∧
          (address - valuesBase) % 256 + size ≤ (e.maps id).valueSize.toNat ∧
          (write = true → (e.maps id).writable = true) then
        some ⟨.values id, (address - valuesBase) / 256 % 4096 * (e.maps id).valueSize.toNat +
          (address - valuesBase) % 256⟩
      else none := by
  obtain ⟨id, hid⟩ := id
  dsimp only at h
  subst h
  unfold valuePointer
  rw [dif_pos hid]

/-- In an environment of this size the translation of an offset in an element is that byte. -/
theorem translate_valueAddress (hcontext : e.contextSize.toNat < 0x10000000)
    (hpacket : e.packetSize.toNat < 0x10000000) (id : Fin bpfMaps) {index within : ℕ}
    (hindex : index < 4096) (hwithin : within < 256) (size : ℕ) (write : Bool) :
    translate e (valueAddress id index within) size write =
      if (e.maps id).values ≠ none ∧ (e.maps id).valueSize.toNat ≤ 256 ∧
          index < (e.maps id).capacity.toNat ∧ within + size ≤ (e.maps id).valueSize.toNat ∧
          (write = true → (e.maps id).writable = true) then
        some ⟨.values id, index * (e.maps id).valueSize.toNat + within⟩
      else none := by
  have haddress : valueAddress id index within - valuesBase =
      id * 0x100000 + index * 256 + within := by
    unfold valueAddress
    omega
  have habove : valuesBase ≤ valueAddress id index within := by
    unfold valueAddress
    omega
  have hmap : (valueAddress id index within - valuesBase) / 0x100000 = id := by omega
  have hplace : (valueAddress id index within - valuesBase) / 256 % 4096 = index := by omega
  have hoffset : (valueAddress id index within - valuesBase) % 256 = within := by omega
  rw [translate_of_above hcontext hpacket habove, valuePointer_eq hmap, hplace, hoffset]

/-- The addresses of an element, whatever the size of the values. -/
def window (id : Fin bpfMaps) (k : UInt32) : Set UInt64 :=
  { a | (elementAddress id k).toNat ≤ a.toNat ∧ a.toNat < (elementAddress id k).toNat + 256 }

/-- The stack with the address behind it, where r10 points. -/
def stackWindow : Set UInt64 := { a | bpfStack ≤ a ∧ a ≤ bpfStack + 512 }

def handles : Set UInt64 := { a | bpfHandles ≤ a ∧ a < bpfHandles + 7 }

theorem disjoint_window {id other : Fin bpfMaps} {k j : UInt32} (hk : k.toNat < 4096)
    (hj : j.toNat < 4096) (hne : (id, k) ≠ (other, j)) :
    Disjoint (window id k) (window other j) := by
  rw [Set.disjoint_left]
  rintro a ⟨hlow, hhigh⟩ ⟨hlow', hhigh'⟩
  rw [toNat_elementAddress id hk] at hlow hhigh
  rw [toNat_elementAddress other hj] at hlow' hhigh'
  unfold valueAddress at hlow hhigh hlow' hhigh'
  have hid : id = other := Fin.ext (by omega)
  have hindex : k = j := UInt32.toNat_inj.mp (by omega)
  exact hne (by rw [hid, hindex])

theorem disjoint_window_stack (id : Fin bpfMaps) {k : UInt32} (hk : k.toNat < 4096) :
    Disjoint (window id k) stackWindow ∧ Disjoint (window id k) handles := by
  have hend : (bpfStack + 512).toNat = 0x30000200 := rfl
  have hhandles : bpfHandles.toNat = 0x80000000 := rfl
  have hbase : valuesBase = 0x40000000 := rfl
  have hid := id.isLt
  have hmaps : bpfMaps = 7 := rfl
  constructor
  · rw [Set.disjoint_left]
    rintro a ⟨hlow, -⟩ ⟨-, hstack⟩
    rw [toNat_elementAddress id hk] at hlow
    rw [UInt64.le_iff_toNat_le] at hstack
    unfold valueAddress at hlow
    omega
  · rw [Set.disjoint_left]
    rintro a ⟨-, hhigh⟩ ⟨hhandle, -⟩
    rw [toNat_elementAddress id hk] at hhigh
    rw [UInt64.le_iff_toNat_le] at hhandle
    unfold valueAddress at hhigh
    omega

/-- Neither null nor a handle is an address. -/
theorem translate_refused (hcontext : e.contextSize.toNat < 0x10000000)
    (hpacket : e.packetSize.toNat < 0x10000000) {address : UInt64}
    (haddress : address = 0 ∨ address ∈ handles) (size : ℕ) (write : Bool) :
    translate e address.toNat size write = none := by
  rcases haddress with rfl | ⟨hlow, -⟩
  · have hbelow : ∀ base : UInt64, base ≠ 0 → ∀ limit, ¬ Spans base.toNat limit 0 size :=
      fun base hne limit ↦ not_spans_of_below (Nat.pos_of_ne_zero fun hzero ↦
        hne (UInt64.toNat_inj.mp hzero))
    change translate e 0 size write = none
    unfold translate
    rw [if_neg (hbelow bpfStack (by decide) _), if_neg fun h ↦ hbelow bpfCtx (by decide) _ h.2,
      if_neg fun h ↦ hbelow bpfData (by decide) _ h.2, if_pos (by decide)]
  · have hhandles : bpfHandles.toNat = 0x80000000 := rfl
    have hbase : valuesBase = 0x40000000 := rfl
    have hmaps : bpfMaps = 7 := rfl
    rw [UInt64.le_iff_toNat_le] at hlow
    have hnone : ¬ (address.toNat - valuesBase) / 0x100000 < bpfMaps := by omega
    rw [translate_of_above hcontext hpacket (by omega), valuePointer, dif_neg hnone]

/-- The map values a program may use: all but those of a map of maps. -/
structure BpfMap.HasElements (m : BpfMap) : Prop where
  type : m.type = bpfArray ∨ m.type = bpfPercpuArray ∨ m.type = bpfLpm
  valueSize : 1 ≤ m.valueSize ∧ m.valueSize ≤ 256
  capacity : m.capacity ≤ 4096
  entries : m.entries ≤ m.capacity

theorem memory_elementAddress (hcontext : vm.environment.contextSize.toNat < 0x10000000)
    (hpacket : vm.environment.packetSize.toNat < 0x10000000) {id : Fin bpfMaps}
    (hm : (vm.environment.maps id).HasElements) (hvalues : (vm.environment.maps id).values ≠ none)
    {k : UInt32} (hk : k.toNat < (vm.environment.maps id).capacity.toNat) {o : UInt64} (ho : o < 256)
    (size : UInt32) (write : Bool) :
    Returns (memory (elementAddress id k + o) size write) vm
      (if o.toNat + size.toNat ≤ (vm.environment.maps id).valueSize.toNat ∧
          (write = true → (vm.environment.maps id).writable = true) then
        some ⟨.values id, k.toNat * (vm.environment.maps id).valueSize.toNat + o.toNat⟩ else none) vm := by
  have hcapacity : (vm.environment.maps id).capacity.toNat ≤ 4096 :=
    UInt32.le_iff_toNat_le.mp hm.capacity
  have hvalueSize : (vm.environment.maps id).valueSize.toNat ≤ 256 :=
    UInt32.le_iff_toNat_le.mp hm.valueSize.2
  have ho' : o.toNat < 256 := UInt64.lt_iff_toNat_lt.mp ho
  have hid := id.isLt
  have hmaps : bpfMaps = 7 := rfl
  have hbase : valuesBase = 0x40000000 := rfl
  have haddress : (elementAddress id k + o).toNat = valueAddress id k.toNat o.toNat := by
    rw [UInt64.toNat_add, toNat_elementAddress id (by omega)]
    unfold valueAddress
    omega
  have htranslate := translate_valueAddress (e := vm.environment) hcontext hpacket id
    (Nat.lt_of_lt_of_le hk hcapacity) ho' size.toNat write
  have hmemory : Returns (memory (elementAddress id k + o) size write) vm _ vm :=
    memory_returns (elementAddress id k + o) size write
  rw [haddress, htranslate] at hmemory
  simpa only [ne_eq, hvalues, not_false_eq_true, hvalueSize, hk, true_and] using hmemory

/-- `lookup` and `memory` agree on the addresses of map values, these addresses do not overlap, and
what is no address of a value is refused. -/
theorem lookup_memory (vm : Vm) (hcontext : vm.environment.contextSize < 0x10000000)
    (hpacket : vm.environment.packetSize < 0x10000000) :
    (∀ id : Fin bpfMaps, (vm.environment.maps id).HasElements → ∀ keyAddress p t,
      lookup (bpfHandles + UInt64.ofNat id) keyAddress vm = .ok (some p) t → p ≠ 0 →
      t = vm ∧ ∃ k : UInt32, Selects vm id keyAddress k ∧ k < (vm.environment.maps id).capacity ∧
        p = elementAddress id k ∧ ∀ (o : UInt64) (size : UInt32) (write : Bool), o < 256 →
          memory (p + o) size write vm =
            .ok (if o.toNat + size.toNat ≤ (vm.environment.maps id).valueSize.toNat ∧
                (write = true → (vm.environment.maps id).writable = true) then
              some ⟨.values id, k.toNat * (vm.environment.maps id).valueSize.toNat + o.toNat⟩
            else none) vm) ∧
    (∀ (id other : Fin bpfMaps) (k j : UInt32), k < 4096 → j < 4096 → (id, k) ≠ (other, j) →
      Disjoint (window id k) (window other j)) ∧
    (∀ (id : Fin bpfMaps) (k : UInt32), k < 4096 →
      Disjoint (window id k) stackWindow ∧ Disjoint (window id k) handles) ∧
    (∀ address : UInt64, address = 0 ∨ address ∈ handles → ∀ size write,
      memory address size write vm = .ok none vm) := by
  have hcontext' : vm.environment.contextSize.toNat < 0x10000000 := UInt32.lt_iff_toNat_lt.mp hcontext
  have hpacket' : vm.environment.packetSize.toNat < 0x10000000 := UInt32.lt_iff_toNat_lt.mp hpacket
  refine ⟨fun id hm keyAddress p t hlookup hne ↦ ?_, fun id other k j hk hj hne ↦ ?_,
    fun id k hk ↦ ?_, fun address haddress size write ↦ ?_⟩
  · have htype : (vm.environment.maps id).type ≠ bpfMapArray := by
      rcases hm.type with h | h | h <;> rw [h] <;> decide
    obtain ⟨rfl, hresult⟩ := (lookup_ensures htype).of_ok hlookup
    obtain ⟨hvalues, k, hselects, hk, rfl⟩ := hresult p rfl hne
    refine ⟨rfl, k, hselects, UInt32.lt_iff_toNat_lt.mpr hk, rfl, fun o size write ho ↦ ?_⟩
    exact memory_elementAddress hcontext' hpacket' hm hvalues hk ho size write
  · exact disjoint_window (UInt32.lt_iff_toNat_lt.mp hk) (UInt32.lt_iff_toNat_lt.mp hj) hne
  · exact disjoint_window_stack id (UInt32.lt_iff_toNat_lt.mp hk)
  · have hmemory : Returns (memory address size write) vm _ vm := memory_returns address size write
    rw [translate_refused hcontext' hpacket' haddress] at hmemory
    exact hmemory

/-- The key at the start of the stack is zero and selects the first element of map 0. -/
theorem lookup_memory_counter :
    ∃ k : UInt32, Selects (start counterEnvironment) 0 bpfStack k ∧ k < 2 ∧
      bpfValues = elementAddress 0 k ∧ ∀ (o : UInt64) (size : UInt32) (write : Bool), o < 256 →
        memory (bpfValues + o) size write (start counterEnvironment) =
          .ok (if o.toNat + size.toNat ≤ 4 ∧ (write = true → true = true) then
            some ⟨.values 0, k.toNat * 4 + o.toNat⟩ else none) (start counterEnvironment) :=
  ((lookup_memory (start counterEnvironment) (by decide) (by decide)).1 0
    ⟨Or.inl rfl, by decide, by decide, by decide⟩ bpfStack bpfValues (start counterEnvironment) rfl
    (by decide)).2

end JordyOS.Bpf
