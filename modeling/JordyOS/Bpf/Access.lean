import JordyOS.Bpf.Bytes
import JordyOS.Bpf.Semantics
import JordyOS.Bpf.Translation

/-!
# Loads and stores

The memory of the interpreter as its programs see it: a load returns the bytes that were last stored at
its addresses, the least significant one first, and a store changes those and no others.
-/

namespace JordyOS.Bpf

open Machine Ebpf

variable {vm t : Vm} {e : BpfEnvironment}

/-! ## What an address denotes -/

/-- The `size` bytes at `address` are those behind the pointer. -/
inductive Denotes (e : BpfEnvironment) (address size : ℕ) : Pointer → Prop
  | stack (h : Spans bpfStack.toNat 512 address size) :
      Denotes e address size ⟨.stack, address - bpfStack.toNat⟩
  | context (h : Spans bpfCtx.toNat e.contextSize.toNat address size) :
      Denotes e address size ⟨.context, address - bpfCtx.toNat⟩
  | packet (h : Spans bpfData.toNat e.packetSize.toNat address size) :
      Denotes e address size ⟨.packet, address - bpfData.toNat⟩
  | value (id : Fin bpfMaps) (index within : ℕ) (haddress : address = valueAddress id index within)
      (hindex : index < 4096) (hcapacity : index < (e.maps id).capacity.toNat)
      (hvalueSize : (e.maps id).valueSize.toNat ≤ 256)
      (hwithin : within + size ≤ (e.maps id).valueSize.toNat) :
      Denotes e address size ⟨.values id, index * (e.maps id).valueSize.toNat + within⟩

theorem valuePointer_denotes {address size : ℕ} {write : Bool} {p : Pointer}
    (habove : valuesBase ≤ address) (h : valuePointer e address size write = some p) :
    Denotes e address size p ∧ ∃ id, p.region = .values id ∧ (e.maps id).values ≠ none ∧
      (write = true → (e.maps id).writable = true) := by
  by_cases hid : (address - valuesBase) / 0x100000 < bpfMaps
  · obtain ⟨id, hmap⟩ : ∃ id : Fin bpfMaps, (address - valuesBase) / 0x100000 = id := ⟨⟨_, hid⟩, rfl⟩
    rw [valuePointer_eq hmap] at h
    split at h
    · rename_i hgranted
      obtain ⟨hvalues, hvalueSize, hcapacity, hwithin, hwrite⟩ := hgranted
      obtain rfl := Option.some.inj h
      refine ⟨Denotes.value id _ _ ?_ (Nat.mod_lt _ (by decide)) hcapacity hvalueSize hwithin,
        id, rfl, hvalues, hwrite⟩
      unfold valueAddress
      omega
    · cases h
  · rw [valuePointer, dif_neg hid] at h
    cases h

/-- What `memory` answers is denoted; a pointer for writing goes into the stack or a writable map. -/
theorem translate_denotes {address size : ℕ} {write : Bool} {p : Pointer}
    (h : translate e address size write = some p) : Denotes e address size p ∧
      (p.region = .stack ∨ write = false ∨
        ∃ id, p.region = .values id ∧ (e.maps id).writable = true) := by
  unfold translate at h
  split at h
  · rename_i hspans
    obtain rfl := Option.some.inj h
    exact ⟨Denotes.stack hspans, Or.inl rfl⟩
  split at h
  · rename_i hspans
    obtain rfl := Option.some.inj h
    exact ⟨Denotes.context hspans.2, Or.inr (Or.inl hspans.1)⟩
  split at h
  · rename_i hspans
    obtain rfl := Option.some.inj h
    exact ⟨Denotes.packet hspans.2, Or.inr (Or.inl hspans.1)⟩
  split at h
  · cases h
  · rename_i habove
    obtain ⟨hdenotes, id, hregion, -, hwrite⟩ := valuePointer_denotes (Nat.not_lt.mp habove) h
    refine ⟨hdenotes, Or.inr ?_⟩
    cases write with
    | false => exact Or.inl rfl
    | true => exact Or.inr ⟨id, hregion, hwrite rfl⟩

theorem Denotes.byte {address size : ℕ} {p : Pointer} (h : Denotes e address size p) {k : ℕ}
    (hk : k < size) : Denotes e (address + k) 1 (p.add k) := by
  cases h with
  | stack h =>
    have hspans : Spans bpfStack.toNat 512 (address + k) 1 := ⟨by have := h.1; omega, by have := h.2; omega⟩
    have hbyte := Denotes.stack (e := e) hspans
    rwa [Nat.sub_add_comm h.1] at hbyte
  | context h =>
    have hspans : Spans bpfCtx.toNat e.contextSize.toNat (address + k) 1 :=
      ⟨by have := h.1; omega, by have := h.2; omega⟩
    have hbyte := Denotes.context hspans
    rwa [Nat.sub_add_comm h.1] at hbyte
  | packet h =>
    have hspans : Spans bpfData.toNat e.packetSize.toNat (address + k) 1 :=
      ⟨by have := h.1; omega, by have := h.2; omega⟩
    have hbyte := Denotes.packet hspans
    rwa [Nat.sub_add_comm h.1] at hbyte
  | value id index within haddress hindex hcapacity hvalueSize hwithin =>
    have hplace : address + k = valueAddress id index (within + k) := by
      rw [haddress]
      unfold valueAddress
      omega
    have hlast : within + k + 1 ≤ (e.maps id).valueSize.toNat := by omega
    rw [Pointer.add, Nat.add_assoc]
    exact Denotes.value id index (within + k) hplace hindex hcapacity hvalueSize hlast

/-- The regions end before the next one begins. -/
structure BpfEnvironment.Apart (e : BpfEnvironment) : Prop where
  context : e.contextSize.toNat ≤ 0x10000000
  packet : e.packetSize.toNat ≤ 0x10000000

/-- Where the addresses of a region lie. -/
def Region.Contains : Region → ℕ → Prop
  | .stack, address => 0x30000000 ≤ address ∧ address < 0x30000200
  | .context, address => 0x10000000 ≤ address ∧ address < 0x20000000
  | .packet, address => 0x20000000 ≤ address ∧ address < 0x30000000
  | .values id, address =>
    valuesBase + id * 0x100000 ≤ address ∧ address < valuesBase + (id + 1) * 0x100000
  | .keys _, _ => False

theorem Denotes.contains (he : e.Apart) {address : ℕ} {p : Pointer} (h : Denotes e address 1 p) :
    p.region.Contains address := by
  have hstack : bpfStack.toNat = 0x30000000 := rfl
  have hctx : bpfCtx.toNat = 0x10000000 := rfl
  have hdata : bpfData.toNat = 0x20000000 := rfl
  have hcontext := he.context
  have hpacket := he.packet
  cases h with
  | stack h =>
    obtain ⟨hlow, hhigh⟩ := h
    exact ⟨by omega, by omega⟩
  | context h =>
    obtain ⟨hlow, hhigh⟩ := h
    exact ⟨by omega, by omega⟩
  | packet h =>
    obtain ⟨hlow, hhigh⟩ := h
    exact ⟨by omega, by omega⟩
  | value id index within haddress hindex hcapacity hvalueSize hwithin =>
    unfold valueAddress at haddress
    exact ⟨by omega, by omega⟩

/-- The regions do not overlap. -/
theorem Region.Contains.unique {region other : Region} {address : ℕ} (h : region.Contains address)
    (hother : other.Contains address) : region = other := by
  have hbase : valuesBase = 0x40000000 := rfl
  have hmaps : bpfMaps = 7 := rfl
  cases region with
  | values id =>
    obtain ⟨hlow, hhigh⟩ := h
    cases other with
    | values there =>
      obtain ⟨hlow', hhigh'⟩ := hother
      exact congrArg Region.values (Fin.ext (by omega))
    | keys => exact hother.elim
    | stack | context | packet =>
      obtain ⟨-, hhigh'⟩ := hother
      omega
  | keys => exact h.elim
  | stack | context | packet =>
    obtain ⟨hlow, hhigh⟩ := h
    cases other with
    | values there =>
      obtain ⟨hlow', -⟩ := hother
      omega
    | keys => exact hother.elim
    | stack | context | packet =>
      obtain ⟨hlow', hhigh'⟩ := hother
      first
        | rfl
        | omega

/-- Map, index and offset can be read off the address. -/
theorem valueAddress_injective {id : Fin bpfMaps} {index index' within within' : ℕ}
    (hwithin : within < 256) (hwithin' : within' < 256)
    (h : valueAddress id index within = valueAddress id index' within') :
    index = index' ∧ within = within' := by
  unfold valueAddress at h
  omega

/-- A byte address stands for one byte only. -/
theorem Denotes.unique (he : e.Apart) {address : ℕ} {p q : Pointer} (hp : Denotes e address 1 p)
    (hq : Denotes e address 1 q) : p = q := by
  have hregion := (hp.contains he).unique (hq.contains he)
  cases hp with
  | stack => cases hq with
    | stack => rfl
    | _ => cases hregion
  | context => cases hq with
    | context => rfl
    | _ => cases hregion
  | packet => cases hq with
    | packet => rfl
    | _ => cases hregion
  | value id index within haddress hindex hcapacity hvalueSize hwithin => cases hq with
    | value other index' within' haddress' hindex' hcapacity' hvalueSize' hwithin' =>
      obtain rfl : id = other := Region.values.inj hregion
      obtain ⟨rfl, rfl⟩ := valueAddress_injective (by omega) (by omega) (haddress.symm.trans haddress')
      rfl
    | _ => cases hregion

/-- A byte is reached by one address only. -/
theorem Denotes.injective {address other : ℕ} {p q : Pointer} (hp : Denotes e address 1 p)
    (hq : Denotes e other 1 q) (hpq : p = q) : address = other := by
  have hregion := congrArg Pointer.region hpq
  have hoffset := congrArg Pointer.offset hpq
  cases hp with
  | stack h => cases hq with
    | stack h' =>
      have hlow := h.1
      have hlow' := h'.1
      dsimp only at hoffset
      omega
    | _ => cases hregion
  | context h => cases hq with
    | context h' =>
      have hlow := h.1
      have hlow' := h'.1
      dsimp only at hoffset
      omega
    | _ => cases hregion
  | packet h => cases hq with
    | packet h' =>
      have hlow := h.1
      have hlow' := h'.1
      dsimp only at hoffset
      omega
    | _ => cases hregion
  | value id index within haddress hindex hcapacity hvalueSize hwithin => cases hq with
    | value there index' within' haddress' hindex' hcapacity' hvalueSize' hwithin' =>
      obtain rfl : id = there := Region.values.inj hregion
      have hpos : 0 < (e.maps id).valueSize.toNat := by omega
      dsimp only at hoffset
      -- Offsets in an element are smaller than the element, so the index is a quotient.
      have hquotient : ∀ {index within : ℕ}, within + 1 ≤ (e.maps id).valueSize.toNat →
          (index * (e.maps id).valueSize.toNat + within) / (e.maps id).valueSize.toNat = index := by
        intro index within hlt
        rw [Nat.mul_comm, Nat.mul_add_div hpos, Nat.div_eq_of_lt hlt, Nat.add_zero]
      have hsame : index = index' := by
        calc index = (index * (e.maps id).valueSize.toNat + within) / (e.maps id).valueSize.toNat :=
              (hquotient hwithin).symm
          _ = (index' * (e.maps id).valueSize.toNat + within') / (e.maps id).valueSize.toNat := by
              rw [hoffset]
          _ = index' := hquotient hwithin'
      rw [hsame] at hoffset
      rw [haddress, haddress', hsame, Nat.add_left_cancel hoffset]
    | _ => cases hregion

/-! ## Bytes of a store -/

/-- From `vm` to `t` the `size` bytes behind `p` have become those of `value`. -/
structure Wrote (p : Pointer) (value : UInt64) (size : ℕ) (vm t : Vm) : Prop where
  registers : t.registers = vm.registers
  pc : t.pc = vm.pc
  steps : t.steps = vm.steps
  translate : translate t.environment = translate vm.environment
  length : ∀ region, (t.bytes region).map List.length = (vm.bytes region).map List.length
  byteAt : ∀ region k, t.byteAt region k =
    if region = p.region ∧ p.offset ≤ k ∧ k < p.offset + size then
      some (UInt8.ofNat (byteOf value.toBitVec (k - p.offset)))
    else vm.byteAt region k

theorem Wrote.refl (p : Pointer) (value : UInt64) (vm : Vm) : Wrote p value 0 vm vm where
  registers := rfl
  pc := rfl
  steps := rfl
  translate := rfl
  length _ := rfl
  byteAt region k := by rw [if_neg (by omega)]

theorem Wrote.holds {p q : Pointer} {value : UInt64} {size n : ℕ} (h : Wrote p value size vm t)
    (hq : vm.Holds q n) : t.Holds q n := by
  obtain ⟨bytes, hbytes, hlength⟩ := hq
  have hsame := h.length q.region
  rw [hbytes, Option.map_some] at hsame
  obtain ⟨bytes', hbytes', heq⟩ := Option.map_eq_some_iff.mp hsame
  exact ⟨bytes', hbytes', by omega⟩

theorem storedByte_eq (value : UInt64) {k : ℕ} (hk : k < 8) :
    (value >>> UInt64.ofNat (k * 8)).toUInt8 = UInt8.ofNat (byteOf value.toBitVec k) := by
  have hlt : k * 8 < 64 := by omega
  have hshift : (UInt64.ofNat (k * 8)).toNat % 64 = k * 8 := by
    rw [UInt64.toNat_ofNat_of_lt' (hlt.trans (by decide)), Nat.mod_eq_of_lt hlt]
  have hpower : 256 ^ k = 2 ^ (k * 8) := by
    rw [Nat.mul_comm, pow_mul]
    rfl
  apply UInt8.toNat_inj.mp
  rw [UInt64.toNat_toUInt8, UInt64.toNat_shiftRight, hshift, Nat.shiftRight_eq_div_pow,
    UInt8.toNat_ofNat', byteOf, hpower, Nat.mod_mod]
  rfl

/-- Translation does not look at the contents of the objects. -/
theorem translate_congr {f : BpfEnvironment} (hcontext : f.contextSize = e.contextSize)
    (hpacket : f.packetSize = e.packetSize)
    (hmaps : ∀ id, (f.maps id).valueSize = (e.maps id).valueSize ∧
      (f.maps id).capacity = (e.maps id).capacity ∧ (f.maps id).writable = (e.maps id).writable ∧
      ((f.maps id).values ≠ none ↔ (e.maps id).values ≠ none)) : translate f = translate e := by
  funext address size write
  have hvalue : valuePointer f address size write = valuePointer e address size write := by
    by_cases hid : (address - valuesBase) / 0x100000 < bpfMaps
    · obtain ⟨id, hmap⟩ : ∃ id : Fin bpfMaps, (address - valuesBase) / 0x100000 = id := ⟨⟨_, hid⟩, rfl⟩
      obtain ⟨hvalueSize, hcapacity, hwritable, hvalues⟩ := hmaps id
      rw [valuePointer_eq hmap, valuePointer_eq hmap, hvalueSize, hcapacity, hwritable]
      simp only [hvalues]
    · rw [valuePointer, valuePointer, dif_neg hid, dif_neg hid]
  unfold translate
  rw [hcontext, hpacket, hvalue]

theorem translate_setBytes (vm : Vm) {region : Region} (bytes : List UInt8)
    (h : vm.bytes region ≠ none) :
    translate (vm.setBytes region bytes).environment = translate vm.environment := by
  cases region with
  | stack | context | packet => rfl
  | values id =>
    refine translate_congr rfl rfl fun there ↦ ?_
    have hmap : (vm.setBytes (.values id) bytes).environment.maps there = _ := setMap_maps _ _ _ _
    rw [hmap]
    by_cases hthere : there = id
    · rw [if_pos hthere, hthere]
      exact ⟨rfl, rfl, rfl, fun _ ↦ h, fun _ ↦ Option.some_ne_none bytes⟩
    · rw [if_neg hthere]
      exact ⟨rfl, rfl, rfl, Iff.rfl⟩
  | keys id =>
    refine translate_congr rfl rfl fun there ↦ ?_
    have hmap : (vm.setBytes (.keys id) bytes).environment.maps there = _ := setMap_maps _ _ _ _
    rw [hmap]
    by_cases hthere : there = id
    · rw [if_pos hthere, hthere]
      exact ⟨rfl, rfl, rfl, Iff.rfl⟩
    · rw [if_neg hthere]
      exact ⟨rfl, rfl, rfl, Iff.rfl⟩

theorem setBytes_variables (vm : Vm) (region : Region) (bytes : List UInt8) :
    (vm.setBytes region bytes).registers = vm.registers ∧ (vm.setBytes region bytes).pc = vm.pc ∧
      (vm.setBytes region bytes).steps = vm.steps := by
  cases region <;> exact ⟨rfl, rfl, rfl⟩

theorem put_wrote {p : Pointer} {value : UInt64} {size n : ℕ} (h : Wrote p value size vm t)
    (hp : vm.Holds p n) (hsize : size < n) (hn : n ≤ 8) :
    Wrote p value (size + 1) vm (t.put p size (value >>> UInt64.ofNat (size * 8)).toUInt8) := by
  have hthere := h.holds hp
  obtain ⟨bytes, hbytes, hlength⟩ := h.holds hp
  obtain ⟨hregisters, hpc, hsteps⟩ := setBytes_variables t p.region
    (((t.bytes p.region).getD []).set (p.offset + size) (value >>> UInt64.ofNat (size * 8)).toUInt8)
  refine ⟨hregisters.trans h.registers, hpc.trans h.pc, hsteps.trans h.steps, ?_, fun region ↦ ?_,
    fun region k ↦ ?_⟩
  · rw [← h.translate]
    exact translate_setBytes t _ (by rw [hbytes]; simp)
  · rw [← h.length]
    unfold Vm.put
    rw [bytes_setBytes]
    by_cases hregion : region = p.region
    · rw [if_pos hregion, hregion, hbytes]
      simp
    · rw [if_neg hregion]
  · rw [byteAt_put hthere hsize, h.byteAt, storedByte_eq value (by omega)]
    by_cases hlast : region = p.region ∧ k = p.offset + size
    · rw [if_pos hlast, if_pos ⟨hlast.1, by omega, by omega⟩, hlast.2, Nat.add_sub_cancel_left]
    · rw [if_neg hlast]
      congr 1
      exact propext ⟨fun hplace ↦ ⟨hplace.1, hplace.2.1, by omega⟩,
        fun hplace ↦ ⟨hplace.1, hplace.2.1, by by_contra hlt; exact hlast ⟨hplace.1, by omega⟩⟩⟩

/-- The loop of a store. -/
theorem forM_store_wrote {p : Pointer} (value : UInt64) {size n : ℕ} (hp : vm.Holds p n)
    (hsize : size ≤ n) (hn : n ≤ 8) :
    ∃ t, Returns ((List.range size).forM fun byte ↦
      store p byte (value >>> UInt64.ofNat (byte * 8)).toUInt8) vm ⟨⟩ t ∧ Wrote p value size vm t := by
  induction size with
  | zero => exact ⟨vm, Returns.pure, Wrote.refl p value vm⟩
  | succ size ih =>
    obtain ⟨t, ht, hwrote⟩ := ih (by omega)
    refine ⟨_, ?_, put_wrote hwrote hp hsize hn⟩
    rw [List.range_succ]
    refine Returns.forM_append ht ?_
    exact Returns.bind (store_returns (hwrote.holds hp) hsize _) Returns.pure

/-! ## Instructions -/

/-- The objects are as large as the environment says. -/
structure Vm.Sized (vm : Vm) : Prop where
  stack : vm.stack.length = 512
  environment : vm.environment.WellSized

theorem value_holds (hvm : vm.Sized) {id : Fin bpfMaps} {index within size : ℕ}
    (hvalues : (vm.environment.maps id).values ≠ none)
    (hindex : index < (vm.environment.maps id).capacity.toNat)
    (hwithin : within + size ≤ (vm.environment.maps id).valueSize.toNat) :
    vm.Holds ⟨.values id, index * (vm.environment.maps id).valueSize.toNat + within⟩ size := by
  obtain ⟨bytes, hbytes⟩ := Option.ne_none_iff_exists'.mp hvalues
  refine ⟨bytes, hbytes, ?_⟩
  calc index * (vm.environment.maps id).valueSize.toNat + within + size
      ≤ index * (vm.environment.maps id).valueSize.toNat +
          (vm.environment.maps id).valueSize.toNat := by omega
    _ = (index + 1) * (vm.environment.maps id).valueSize.toNat := (Nat.succ_mul _ _).symm
    _ ≤ (vm.environment.maps id).capacity.toNat * (vm.environment.maps id).valueSize.toNat :=
        Nat.mul_le_mul_right _ hindex
    _ ≤ bytes.length := (hvm.environment.maps id).values bytes hbytes

/-- The bytes a pointer from `memory` is for exist. -/
theorem translate_holds (hvm : vm.Sized) {address size : ℕ} {write : Bool} {p : Pointer}
    (h : translate vm.environment address size write = some p) : vm.Holds p size := by
  unfold translate at h
  split at h
  · rename_i hspans
    obtain ⟨hlow, hhigh⟩ := hspans
    obtain rfl := Option.some.inj h
    have hstack := hvm.stack
    exact ⟨vm.stack, rfl, by dsimp only; omega⟩
  split at h
  · rename_i hspans
    obtain ⟨-, hlow, hhigh⟩ := hspans
    obtain rfl := Option.some.inj h
    have hcontext := hvm.environment.context
    exact ⟨vm.environment.context, rfl, by dsimp only; omega⟩
  split at h
  · rename_i hspans
    obtain ⟨-, hlow, hhigh⟩ := hspans
    obtain rfl := Option.some.inj h
    have hpacket := hvm.environment.packet
    exact ⟨vm.environment.packet, rfl, by dsimp only; omega⟩
  split at h
  · cases h
  · by_cases hid : (address - valuesBase) / 0x100000 < bpfMaps
    · obtain ⟨id, hmap⟩ : ∃ id : Fin bpfMaps, (address - valuesBase) / 0x100000 = id := ⟨⟨_, hid⟩, rfl⟩
      rw [valuePointer_eq hmap] at h
      split at h
      · rename_i hgranted
        obtain ⟨hvalues, -, hindex, hwithin, -⟩ := hgranted
        obtain rfl := Option.some.inj h
        exact value_holds hvm hvalues hindex hwithin
      · cases h
    · rw [valuePointer, dif_neg hid] at h
      cases h

/-- A place that may be written may be read. -/
theorem translate_read (he : e.Apart) {address size : ℕ} {p : Pointer}
    (h : translate e address size true = some p) : translate e address size false = some p := by
  have hctx : bpfCtx.toNat = 0x10000000 := rfl
  have hdata : bpfData.toNat = 0x20000000 := rfl
  have hbase : valuesBase = 0x40000000 := rfl
  have hcontext := he.context
  have hpacket := he.packet
  unfold translate at h ⊢
  split at h
  · rename_i hspans
    rwa [if_pos hspans]
  rename_i hstack
  rw [if_neg (fun h ↦ Bool.noConfusion h.1), if_neg (fun h ↦ Bool.noConfusion h.1)] at h
  split at h
  · cases h
  rename_i habove
  have hnoContext : ¬ Spans bpfCtx.toNat e.contextSize.toNat address size :=
    not_spans_of_above (by omega)
  have hnoPacket : ¬ Spans bpfData.toNat e.packetSize.toNat address size :=
    not_spans_of_above (by omega)
  rw [if_neg hstack, if_neg fun hspans ↦ hnoContext hspans.2, if_neg fun hspans ↦ hnoPacket hspans.2,
    if_neg habove]
  by_cases hid : (address - valuesBase) / 0x100000 < bpfMaps
  · obtain ⟨id, hmap⟩ : ∃ id : Fin bpfMaps, (address - valuesBase) / 0x100000 = id := ⟨⟨_, hid⟩, rfl⟩
    rw [valuePointer_eq hmap] at h ⊢
    split at h
    · rename_i hgranted
      obtain ⟨hvalues, hvalueSize, hindex, hwithin, -⟩ := hgranted
      rw [if_pos ⟨hvalues, hvalueSize, hindex, hwithin, fun hwrite ↦ Bool.noConfusion hwrite⟩]
      exact h
    · cases h
  · rw [valuePointer, dif_neg hid] at h
    cases h

/-- A load of `size` bytes at `address` gives `n`. -/
def Vm.Loads (vm : Vm) (address : UInt64) (size : ℕ) (n : UInt64) : Prop :=
  ∃ p, memory address (UInt32.ofNat size) false vm = .ok (some p) vm ∧ readLe p size vm = .ok n vm

/-- The widths a load or store may have. -/
def Sizes : List ℕ := [1, 2, 4, 8]

theorem le_of_mem_sizes {size : ℕ} (h : size ∈ Sizes) : size ≤ 8 := by
  unfold Sizes at h
  simp only [List.mem_cons, List.not_mem_nil, or_false] at h
  omega

theorem accessSize_mem (i : BpfInsn) : accessSize i ∈ Sizes := by
  unfold accessSize
  split_ifs <;> decide

theorem memory_iff {address : UInt64} {size : ℕ} (hsize : size ≤ 8) {write : Bool} {p : Pointer} :
    memory address (UInt32.ofNat size) write vm = .ok (some p) vm ↔
      translate vm.environment address.toNat size write = some p := by
  have hmemory : memory address (UInt32.ofNat size) write vm = _ := memory_returns address _ write
  have hnumber : (UInt32.ofNat size).toNat = size :=
    UInt32.toNat_ofNat_of_lt' (hsize.trans_lt (by decide))
  rw [hmemory, hnumber, EStateM.Result.ok.injEq]
  exact and_iff_left rfl

theorem loads_iff {address : UInt64} {size : ℕ} {n : UInt64} (hsize : size ≤ 8)
    (hholds : ∀ p, translate vm.environment address.toNat size false = some p → vm.Holds p size) :
    vm.Loads address size n ↔ ∃ p, translate vm.environment address.toNat size false = some p ∧
      n = leWord (vm.view p) size := by
  unfold Vm.Loads
  refine exists_congr fun p ↦ ?_
  rw [memory_iff hsize]
  refine and_congr_right fun hp ↦ ?_
  have hread : readLe p size vm = _ := readLe_returns (hholds p hp)
  rw [hread, EStateM.Result.ok.injEq]
  exact ⟨fun h ↦ h.1.symm, fun h ↦ ⟨h.symm, rfl⟩⟩

theorem byteOf_leWord (view : Memory) {size k : ℕ} (hsize : size ≤ 8) (hk : k < size) :
    byteOf (leWord view size).toBitVec k = (view k).toNat := by
  have hword : (leWord view size).toBitVec.toNat = view.readWord 0 size := toNat_leWord view hsize
  rw [byteOf, hword, Memory.readWord_byte view 0 hk, Nat.zero_add]

/-- A byte seen through a pointer after a store: inside the range of addresses that of the value, and
outside that from before. -/
theorem Wrote.view (he : e.Apart) {p q : Pointer} {value : UInt64} {address other size length : ℕ}
    (h : Wrote p value size vm t) (hp : Denotes e address size p) (hq : Denotes e other length q) {k : ℕ}
    (hk : k < length) : t.view q k =
      if address ≤ other + k ∧ other + k < address + size then
        UInt8.ofNat (byteOf value.toBitVec (other + k - address))
      else vm.view q k := by
  rw [Vm.view_eq, h.byteAt, Vm.view_eq vm]
  have hbyte := hq.byte hk
  by_cases hrange : address ≤ other + k ∧ other + k < address + size
  · obtain ⟨hlow, hhigh⟩ := hrange
    have hbyte' := hp.byte (k := other + k - address) (by omega)
    rw [Nat.add_sub_cancel' hlow] at hbyte'
    have hsame := hbyte'.unique he hbyte
    obtain ⟨hregion, hoffset⟩ := Pointer.mk.inj hsame
    have hplace : q.offset + k - p.offset = other + k - address := by omega
    rw [if_pos ⟨hregion.symm, by omega, by omega⟩, if_pos ⟨hlow, hhigh⟩, hplace, Option.getD_some]
  · rw [if_neg hrange, if_neg]
    rintro ⟨hregion, hlow, hhigh⟩
    have hbyte' := hp.byte (k := q.offset + k - p.offset) (by omega)
    have hsame : p.add (q.offset + k - p.offset) = q.add k := by
      unfold Pointer.add
      rw [hregion, Nat.add_sub_cancel' hlow]
    have haddress := hbyte'.injective hbyte hsame
    omega

theorem access_load {i : BpfInsn} (hmode : i.code &&& 0xe0 = 0x60) (hload : i.cls = 1) {dst src : Fin 11}
    (hdst : i.dst = dst) (hframe : i.dst ≠ 10) (hsrc : i.src = src) {n : UInt64}
    (h : vm.Loads (vm.registers[src] + i.offset.toInt64.toUInt64) (accessSize i) n) :
    Returns (access i) vm ⟨⟩ (vm.setRegister dst n) := by
  obtain ⟨p, hmemory, hread⟩ := h
  have hread' : Returns (readLe p (accessSize i)) vm n vm := hread
  have hgood : ¬ (i.code &&& 0xe0 ≠ 0x60 ∨ (i.cls = 1 ∧ i.dst = 10)) := by
    rintro (hbad | hbad)
    · exact hbad hmode
    · exact hframe hbad.2
  refine Returns.ite_neg hgood ?_
  rw [if_pos hload, hsrc, hload]
  refine Returns.bind (getRegister_returns src) (Returns.bind hmemory ?_)
  refine Returns.ite_pos rfl (Returns.bind hread' ?_)
  rw [hdst]
  exact setRegister_returns dst n

theorem access_store (hvm : vm.Sized) {i : BpfInsn} (hmode : i.code &&& 0xe0 = 0x60)
    (hstore : i.cls = 2 ∨ i.cls = 3) {dst src : Fin 11} (hdst : i.dst = dst) (hsrc : i.src = src)
    {p : Pointer} (hp : translate vm.environment
      (vm.registers[dst] + i.offset.toInt64.toUInt64).toNat (accessSize i) true = some p) :
    ∃ t, Returns (access i) vm ⟨⟩ t ∧
      Wrote p (if i.cls = 3 then vm.registers[src] else i.signExtended) (accessSize i) vm t := by
  have hsize := le_of_mem_sizes (accessSize_mem i)
  obtain ⟨t, ht, hwrote⟩ := forM_store_wrote
    (if i.cls = 3 then vm.registers[src] else i.signExtended) (translate_holds hvm hp) le_rfl hsize
  have hload : i.cls ≠ 1 := by
    rcases hstore with h | h <;> rw [h] <;> decide
  have hwrite : (i.cls != 1) = true := bne_iff_ne.mpr hload
  have hgood : ¬ (i.code &&& 0xe0 ≠ 0x60 ∨ (i.cls = 1 ∧ i.dst = 10)) := by
    rintro (hbad | hbad)
    · exact hbad hmode
    · exact hload hbad.1
  have hvalue : Returns (storedValue i) vm
      (if i.cls = 3 then vm.registers[src] else i.signExtended) vm := by
    refine Returns.ite Iff.rfl (fun _ ↦ ?_) fun _ ↦ Returns.pure
    rw [hsrc]
    exact getRegister_returns src
  refine ⟨t, Returns.ite_neg hgood ?_, hwrote⟩
  rw [if_neg hload, hdst, hwrite]
  refine Returns.bind (getRegister_returns dst) (Returns.bind ((memory_iff hsize).mpr hp) ?_)
  exact Returns.ite_neg hload (Returns.bind hvalue ht)

/-! ## What loads see of a store -/

section Loads

variable {p : Pointer} {address other value n m : UInt64} {width size : ℕ}

theorem loads_iff_of_sized (hvm : vm.Sized) (hsize : size ≤ 8) : vm.Loads other size n ↔
    ∃ q, translate vm.environment other.toNat size false = some q ∧ n = leWord (vm.view q) size :=
  loads_iff hsize fun _ hq ↦ translate_holds hvm hq

/-- Loads before and after a write go through the same pointers. -/
theorem loads_iff_of_wrote (h : Wrote p value width vm t) (hvm : vm.Sized) (hsize : size ≤ 8) : t.Loads other size n ↔
    ∃ q, translate vm.environment other.toNat size false = some q ∧ n = leWord (t.view q) size := by
  rw [← h.translate]
  refine loads_iff hsize fun q hq ↦ ?_
  rw [h.translate] at hq
  exact h.holds (translate_holds hvm hq)

/-- What was written is loaded. -/
theorem exists_loads_value (h : Wrote p value width vm t) (hvm : vm.Sized) (he : vm.environment.Apart)
    (hwidth : width ≤ 8) (hp : translate vm.environment address.toNat width true = some p) :
    ∃ n, t.Loads address width n ∧ n.toNat = value.toNat % 2 ^ (8 * width) := by
  obtain ⟨hdenotes, -⟩ := translate_denotes hp
  refine ⟨_, (loads_iff_of_wrote h hvm hwidth).mpr ⟨p, translate_read he hp, rfl⟩, ?_⟩
  rw [toNat_leWord _ hwidth, pow_mul]
  refine Memory.readWord_of_bytes fun k hk ↦ ?_
  rw [Nat.zero_add, h.view he hdenotes hdenotes hk, if_pos ⟨by omega, by omega⟩, Nat.add_sub_cancel_left]
  apply UInt8.toNat_inj.mp
  rw [UInt8.toNat_ofNat', UInt8.toNat_ofNat', byteOf, Nat.mod_mod]
  rfl

theorem exists_loads_iff (h : Wrote p value width vm t) (hvm : vm.Sized) (hsize : size ≤ 8) :
    (∃ n, t.Loads other size n) ↔ ∃ n, vm.Loads other size n := by
  constructor
  · rintro ⟨n, hn⟩
    obtain ⟨q, hq, -⟩ := (loads_iff_of_wrote h hvm hsize).mp hn
    exact ⟨_, (loads_iff_of_sized hvm hsize).mpr ⟨q, hq, rfl⟩⟩
  · rintro ⟨n, hn⟩
    obtain ⟨q, hq, -⟩ := (loads_iff_of_sized hvm hsize).mp hn
    exact ⟨_, (loads_iff_of_wrote h hvm hsize).mpr ⟨q, hq, rfl⟩⟩

/-- A load after a write sees the bytes that were written, and around them the bytes from before. -/
theorem byteOf_loads (h : Wrote p value width vm t) (hvm : vm.Sized) (he : vm.environment.Apart)
    (hp : translate vm.environment address.toNat width true = some p) (hsize : size ≤ 8) (hn : vm.Loads other size n)
    (hm : t.Loads other size m) {k : ℕ} (hk : k < size) :
    byteOf m.toBitVec k =
      if address.toNat ≤ other.toNat + k ∧ other.toNat + k < address.toNat + width then
        byteOf value.toBitVec (other.toNat + k - address.toNat)
      else byteOf n.toBitVec k := by
  obtain ⟨hdenotes, -⟩ := translate_denotes hp
  obtain ⟨q, hq, rfl⟩ := (loads_iff_of_sized hvm hsize).mp hn
  obtain ⟨q', hq', rfl⟩ := (loads_iff_of_wrote h hvm hsize).mp hm
  obtain rfl : q = q' := Option.some.inj (hq.symm.trans hq')
  rw [byteOf_leWord _ hsize hk, byteOf_leWord _ hsize hk, h.view he hdenotes (translate_denotes hq).1 hk]
  split
  · rw [UInt8.toNat_ofNat', byteOf, Nat.mod_mod]
  · rfl

theorem loads_of_disjoint (h : Wrote p value width vm t) (hvm : vm.Sized) (he : vm.environment.Apart)
    (hp : translate vm.environment address.toNat width true = some p) (hsize : size ≤ 8) (hn : vm.Loads other size n)
    (hm : t.Loads other size m)
    (hdisjoint : other.toNat + size ≤ address.toNat ∨ address.toNat + width ≤ other.toNat) : m = n := by
  obtain ⟨hdenotes, -⟩ := translate_denotes hp
  obtain ⟨q, hq, rfl⟩ := (loads_iff_of_sized hvm hsize).mp hn
  obtain ⟨q', hq', rfl⟩ := (loads_iff_of_wrote h hvm hsize).mp hm
  obtain rfl : q = q' := Option.some.inj (hq.symm.trans hq')
  apply UInt64.toNat_inj.mp
  rw [toNat_leWord _ hsize, toNat_leWord _ hsize]
  refine Memory.readWord_congr fun k _ hk ↦ ?_
  rw [h.view he hdenotes (translate_denotes hq).1 (by omega), if_neg (by omega)]

end Loads

/-- Stores and loads of the interpreter: what a store has written can be read back, other bytes stay, and
every load afterwards returns the bytes last written at its addresses. -/
theorem store_load (vm : Vm) (hvm : vm.Sized) (he : vm.environment.Apart) (i : BpfInsn)
    (hmode : i.code &&& 0xe0 = 0x60) (hstore : i.cls = 2 ∨ i.cls = 3) (dst src : Fin 11)
    (hdst : i.dst = dst) (hsrc : i.src = src) (address value : UInt64)
    (haddress : address = vm.registers[dst] + i.offset.toInt64.toUInt64)
    (hvalue : value = if i.cls = 3 then vm.registers[src] else i.signExtended) (p : Pointer)
    (hp : memory address (UInt32.ofNat (accessSize i)) true vm = .ok (some p) vm) :
    ∃ t, access i vm = .ok ⟨⟩ t ∧ t.registers = vm.registers ∧ t.pc = vm.pc ∧
      (∀ region k, ¬ (region = p.region ∧ p.offset ≤ k ∧ k < p.offset + accessSize i) →
        t.byteAt region k = vm.byteAt region k) ∧
      (∃ n, t.Loads address (accessSize i) n ∧ n.toNat = value.toNat % 2 ^ (8 * accessSize i)) ∧
      (∀ (other : UInt64), ∀ size ∈ Sizes,
        ((∃ n, t.Loads other size n) ↔ ∃ n, vm.Loads other size n) ∧
        ∀ n m, vm.Loads other size n → t.Loads other size m →
          (other.toNat + size ≤ address.toNat ∨ address.toNat + accessSize i ≤ other.toNat → m = n) ∧
          ∀ k < size, byteOf m.toBitVec k =
            if address.toNat ≤ other.toNat + k ∧ other.toNat + k < address.toNat + accessSize i then
              byteOf value.toBitVec (other.toNat + k - address.toNat)
            else byteOf n.toBitVec k) ∧
      ∀ (j : BpfInsn) (into base : Fin 11), j.code &&& 0xe0 = 0x60 → j.cls = 1 → j.dst = into → j.dst ≠ 10 →
        j.src = base → ∀ n, t.Loads (t.registers[base] + j.offset.toInt64.toUInt64) (accessSize j) n →
        access j t = .ok ⟨⟩ (t.setRegister into n) := by
  have hwidth := le_of_mem_sizes (accessSize_mem i)
  rw [memory_iff hwidth] at hp
  have hp' := hp
  rw [haddress] at hp'
  obtain ⟨t, ht, hwrote⟩ := access_store hvm hmode hstore hdst hsrc hp'
  rw [← hvalue] at hwrote
  refine ⟨t, ht, hwrote.registers, hwrote.pc, fun region k hk ↦ ?_, exists_loads_value hwrote hvm he hwidth hp,
    fun other size hother ↦ ⟨?_, fun n m hn hm ↦ ⟨?_, fun k hk ↦ ?_⟩⟩,
    fun j into base hmode' hload hinto hframe hbase n hn ↦ ?_⟩
  · rw [hwrote.byteAt, if_neg hk]
  · exact exists_loads_iff hwrote hvm (le_of_mem_sizes hother)
  · exact loads_of_disjoint hwrote hvm he hp (le_of_mem_sizes hother) hn hm
  · exact byteOf_loads hwrote hvm he hp (le_of_mem_sizes hother) hn hm hk
  · exact access_load hmode' hload hinto hframe hbase hn

/-- A word is stored below the frame pointer. -/
theorem store_load_counter :
    ∃ t, access ⟨0x62, 0x0a, -4, 1⟩ (start counterEnvironment) = .ok ⟨⟩ t ∧
      ∃ n, t.Loads (bpfStack + 508) 4 n ∧ n.toNat = (1 : UInt64).toNat % 2 ^ (8 * 4) := by
  obtain ⟨t, ht, -, -, -, hload, -⟩ := store_load (start counterEnvironment)
    ⟨List.length_replicate, counterEnvironment_wellSized⟩ ⟨by decide, by decide⟩ ⟨0x62, 0x0a, -4, 1⟩ (by decide)
    (by decide) 10 0 rfl rfl (bpfStack + 508) 1 (by decide) (by decide) ⟨.stack, 508⟩ rfl
  exact ⟨t, ht, hload⟩

end JordyOS.Bpf
