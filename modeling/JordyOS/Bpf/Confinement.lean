import JordyOS.Bpf.Vm

/-!
# Confinement

What any program, well formed or not, can do to its environment: change values of writable maps, and
nothing else.  A pointer is only ever made by `memory` or for the keys and values of a map, inside the
object it points into; so no access leaves its object as long as the buffers are as large as the
environment says.
-/

namespace JordyOS.Bpf

open Machine

/-! ## Environments -/

/-- The buffers of a map are at least as large as its fields say. -/
structure BpfMap.WellSized (m : BpfMap) : Prop where
  values : ∀ bytes, m.values = some bytes → m.capacity.toNat * m.valueSize.toNat ≤ bytes.length
  keys : m.type = bpfLpm → ∀ bytes, m.keys = some bytes → m.entries.toNat * 20 ≤ bytes.length

structure BpfEnvironment.WellSized (e : BpfEnvironment) : Prop where
  context : e.contextSize.toNat ≤ e.context.length
  packet : e.packetSize.toNat ≤ e.packet.length
  maps : ∀ id, (e.maps id).WellSized

/-- `n` is `m` up to the contents of its values, and with the same values if `m` is read-only. -/
structure BpfMap.Keeps (m n : BpfMap) : Prop where
  type : n.type = m.type
  keySize : n.keySize = m.keySize
  valueSize : n.valueSize = m.valueSize
  capacity : n.capacity = m.capacity
  entries : n.entries = m.entries
  keys : n.keys = m.keys
  writable : n.writable = m.writable
  size : n.values.map List.length = m.values.map List.length
  readOnly : m.writable = false → n.values = m.values

/-- `f` is `e` up to the values of writable maps. -/
structure BpfEnvironment.Keeps (e f : BpfEnvironment) : Prop where
  context : f.context = e.context
  packet : f.packet = e.packet
  contextSize : f.contextSize = e.contextSize
  packetSize : f.packetSize = e.packetSize
  maps : ∀ id, (e.maps id).Keeps (f.maps id)

theorem BpfMap.Keeps.refl (m : BpfMap) : m.Keeps m :=
  ⟨rfl, rfl, rfl, rfl, rfl, rfl, rfl, rfl, fun _ ↦ rfl⟩

theorem BpfMap.Keeps.values_ne_none {m n : BpfMap} (h : m.Keeps n) (hvalues : n.values ≠ none) :
    m.values ≠ none := by
  intro hnone
  have hsize := h.size
  rw [hnone] at hsize
  exact hvalues (Option.map_eq_none_iff.mp hsize)

theorem BpfEnvironment.Keeps.refl (e : BpfEnvironment) : e.Keeps e :=
  ⟨rfl, rfl, rfl, rfl, fun id ↦ BpfMap.Keeps.refl (e.maps id)⟩

@[simp]
theorem BpfEnvironment.setMap_self (e : BpfEnvironment) (id : Fin bpfMaps) (m : BpfMap) :
    (e.setMap id m).maps id = m := by
  unfold BpfEnvironment.setMap
  exact Function.update_self id m e.maps

theorem BpfEnvironment.setMap_of_ne (e : BpfEnvironment) {id other : Fin bpfMaps} (m : BpfMap)
    (h : other ≠ id) : (e.setMap id m).maps other = e.maps other := by
  unfold BpfEnvironment.setMap
  exact Function.update_of_ne h m e.maps

theorem BpfEnvironment.Keeps.setMap {e f : BpfEnvironment} (h : e.Keeps f) {id : Fin bpfMaps}
    {m : BpfMap} (hm : (e.maps id).Keeps m) : e.Keeps (f.setMap id m) := by
  refine ⟨h.context, h.packet, h.contextSize, h.packetSize, fun other ↦ ?_⟩
  by_cases hother : other = id
  · rw [hother, BpfEnvironment.setMap_self]
    exact hm
  · rw [BpfEnvironment.setMap_of_ne f m hother]
    exact h.maps other

namespace BpfEnvironment

variable (e : BpfEnvironment)

/-- The size of an object. -/
def extent : Region → Option ℕ
  | .stack => some 512
  | .context => some e.context.length
  | .packet => some e.packet.length
  | .values id => (e.maps id).values.map List.length
  | .keys id => (e.maps id).keys.map List.length

def Writable : Region → Prop
  | .stack => True
  | .values id => (e.maps id).writable = true
  | _ => False

/-- The `size` bytes from `p` on lie inside its object. -/
def Inside (p : Pointer) (size : ℕ) : Prop :=
  ∃ limit, e.extent p.region = some limit ∧ p.offset + size ≤ limit

/-- An access outside an object; only an environment with short buffers permits one. -/
def Outside (h : Halt) : Prop := h = .outOfBounds ∧ ¬ e.WellSized

end BpfEnvironment

/-! ## The state of a run -/

/-- A state the interpreter can be in when it started on `e`. -/
structure Vm.Confined (e : BpfEnvironment) (vm : Vm) : Prop where
  frame : getElem vm.registers 10 frame_lt = bpfStack + 512
  stack : vm.stack.length = 512
  environment : e.Keeps vm.environment

section Objects

variable {e : BpfEnvironment} {vm : Vm}

theorem Vm.Confined.extent (h : vm.Confined e) (region : Region) :
    (vm.bytes region).map List.length = e.extent region := by
  cases region with
  | stack => exact congrArg some h.stack
  | context => exact congrArg (some ∘ List.length) h.environment.context
  | packet => exact congrArg (some ∘ List.length) h.environment.packet
  | values id => exact (h.environment.maps id).size
  | keys id => exact congrArg (Option.map List.length) (h.environment.maps id).keys

/-- Storing into a writable object keeps the state confined. -/
theorem Vm.Confined.setBytes (h : vm.Confined e) {region : Region} (hwritable : e.Writable region)
    {old new : List UInt8} (hold : vm.bytes region = some old) (hsize : new.length = old.length) :
    (vm.setBytes region new).Confined e ∧ (vm.setBytes region new).pc = vm.pc := by
  cases region with
  | stack =>
    have hstack : old = vm.stack := (Option.some.inj hold).symm
    exact ⟨⟨h.frame, by rw [Vm.setBytes, hsize, hstack, h.stack], h.environment⟩, rfl⟩
  | values id =>
    refine ⟨⟨h.frame, h.stack, h.environment.setMap ?_⟩, rfl⟩
    have hmap := h.environment.maps id
    have hvalues : (vm.environment.maps id).values = some old := hold
    refine { hmap with size := ?_, readOnly := fun hreadOnly ↦ ?_ }
    · rw [← hmap.size, hvalues, Option.map_some, Option.map_some, hsize]
    · exact absurd (hreadOnly.symm.trans hwritable) Bool.false_ne_true
  | context => exact hwritable.elim
  | packet => exact hwritable.elim
  | keys => exact hwritable.elim

end Objects

/-! ## Reading -/

section Reading

variable {α β : Type} (e : BpfEnvironment)

/-- A program that changes nothing, and stops only for an access outside an object. -/
def Reads (x : Exec α) (vm : Vm) (post : α → Prop) : Prop :=
  Ensures x vm (fun a t ↦ t = vm ∧ post a) (fun h t ↦ t = vm ∧ e.Outside h)

variable {e} {x : Exec α} {f : α → Exec β} {vm : Vm} {post : α → Prop}

theorem Reads.pure {a : α} (h : post a) : Reads e (Pure.pure a) vm post := ⟨rfl, h⟩

theorem Reads.throw {h : Halt} (houtside : e.Outside h) :
    Reads e (MonadExcept.throw h) vm post := ⟨rfl, houtside⟩

theorem Reads.ensures {result : β → Vm → Prop} {halt : Halt → Vm → Prop} (hx : Reads e x vm post)
    (hf : ∀ a, post a → Ensures (f a) vm result halt) (houtside : ∀ h, e.Outside h → halt h vm) :
    Ensures (x >>= f) vm result halt := by
  refine Ensures.bind (hx.mono ?_ ?_)
  · rintro a _ ⟨rfl, ha⟩
    exact hf a ha
  · rintro h _ ⟨rfl, houtside'⟩
    exact houtside h houtside'

theorem Reads.bind {result : β → Prop} (hx : Reads e x vm post)
    (hf : ∀ a, post a → Reads e (f a) vm result) : Reads e (x >>= f) vm result :=
  Reads.ensures hx hf fun _ houtside ↦ ⟨rfl, houtside⟩

theorem Reads.get {post : Vm → Prop} (h : post vm) : Reads e MonadState.get vm post := ⟨rfl, h⟩

theorem Reads.ite {y : Exec α} {p : Prop} [Decidable p] (htrue : p → Reads e x vm post)
    (hfalse : ¬ p → Reads e y vm post) : Reads e (if p then x else y) vm post :=
  Ensures.ite htrue hfalse

theorem Reads.foldlM {step : β → α → Exec β} {l : List α} {b : β} {invariant : β → Prop}
    (hstart : invariant b) (hstep : ∀ a ∈ l, ∀ c, invariant c → Reads e (step c a) vm invariant) :
    Reads e (l.foldlM step b) vm invariant := by
  refine Ensures.foldlM (fun c t ↦ t = vm ∧ invariant c) ⟨rfl, hstart⟩ ?_
  rintro a ha c _ ⟨rfl, hc⟩
  exact hstep a ha c hc

theorem Reads.allM {test : α → Exec Bool} {l : List α}
    (hstep : ∀ a ∈ l, Reads e (test a) vm fun _ ↦ True) :
    Reads e (l.allM test) vm fun _ ↦ True := by
  refine (Ensures.allM (fun t ↦ t = vm) rfl ?_).mono (fun _ _ ht ↦ ⟨ht, trivial⟩) fun _ _ ht ↦ ht
  rintro a ha _ rfl
  exact (hstep a ha).mono (fun _ _ ht ↦ ht.1) fun _ _ ht ↦ ht

theorem getRegister_reads {n : ℕ} (hn : n ≤ 10) : Reads e (getRegister n) vm fun _ ↦ True := by
  refine Reads.bind (Reads.get rfl) fun t ht ↦ ?_
  have hsome : t.registers[n]? = some t.registers[n] := Vector.getElem?_eq_getElem (by omega)
  rw [hsome]
  exact Reads.pure (by trivial)

theorem mapIndex_reads {id : ℕ} (hid : id < bpfMaps) :
    Reads e (mapIndex id) vm fun i ↦ i.val = id := by
  rw [mapIndex, dif_pos hid]
  exact Reads.pure rfl

theorem load_reads (h : vm.Confined e) {p : Pointer} {i : ℕ}
    (hinside : e.WellSized → e.Inside p (i + 1)) : Reads e (load p i) vm fun _ ↦ True := by
  refine Reads.bind (Reads.get rfl) ?_
  rintro _ rfl
  have hsized : e.WellSized → (vm.bytes p.region).bind (·[p.offset + i]?) ≠ none := by
    intro hsized hnone
    obtain ⟨limit, hextent, hlimit⟩ := hinside hsized
    rw [← h.extent] at hextent
    obtain ⟨bytes, hbytes, hlength⟩ := Option.map_eq_some_iff.mp hextent
    rw [hbytes, Option.bind_some, List.getElem?_eq_none_iff] at hnone
    omega
  revert hsized
  generalize (vm.bytes p.region).bind (·[p.offset + i]?) = byte
  intro hsized
  cases byte with
  | some byte => exact Reads.pure (by trivial)
  | none => exact Reads.throw ⟨rfl, fun hwell ↦ hsized hwell rfl⟩

theorem readLe_reads (h : vm.Confined e) {p : Pointer} {size : ℕ}
    (hinside : e.WellSized → e.Inside p size) : Reads e (readLe p size) vm fun _ ↦ True := by
  refine Reads.foldlM trivial fun i hi n _ ↦ ?_
  have hi' := List.mem_range.mp hi
  refine Reads.bind (load_reads h fun hsized ↦ ?_) fun _ _ ↦ Reads.pure (by trivial)
  obtain ⟨limit, hextent, hlimit⟩ := hinside hsized
  exact ⟨limit, hextent, by omega⟩

theorem covers_le {base address limit size : UInt64} (h : covers base address limit size = true) :
    (address - base).toNat + size.toNat ≤ limit.toNat := by
  simp only [covers, Bool.and_eq_true, decide_eq_true_eq] at h
  obtain ⟨⟨-, hoffset⟩, hsize⟩ := h
  rw [UInt64.le_iff_toNat_le, UInt64.toNat_sub_of_le _ _ hoffset] at hsize
  rw [UInt64.le_iff_toNat_le] at hoffset
  omega

/-- The map a virtual address of a value belongs to. -/
theorem toNat_mapId_lt {address : UInt64} (hlow : ¬ address < bpfValues)
    (hhigh : ¬ address ≥ bpfValues + 7 * 0x100000) :
    ((address - bpfValues).toUInt32 >>> 20).toNat < bpfMaps := by
  have hbase : bpfValues.toNat = 0x40000000 := rfl
  have hlimit : (bpfValues + 7 * 0x100000).toNat = 0x40700000 := rfl
  have hlow' := UInt64.not_lt.mp hlow
  have hhigh' := UInt64.not_le.mp hhigh
  have hoffset := UInt64.toNat_sub_of_le _ _ hlow'
  rw [UInt64.lt_iff_toNat_lt, hlimit] at hhigh'
  have hshift : (20 : UInt32).toNat % 32 = 20 := rfl
  rw [UInt32.toNat_shiftRight, UInt64.toNat_toUInt32, hoffset, hshift, Nat.shiftRight_eq_div_pow]
  have hmaps : bpfMaps = 7 := rfl
  omega

theorem toNat_index_le (offset : UInt32) : ((offset &&& 0xfffff) >>> 8).toNat ≤ 4095 := by
  have hand : (offset &&& 0xfffff).toNat ≤ 0xfffff := by
    rw [UInt32.toNat_and]
    exact Nat.and_le_right
  have hshift : (8 : UInt32).toNat % 32 = 8 := rfl
  rw [UInt32.toNat_shiftRight, hshift, Nat.shiftRight_eq_div_pow]
  omega

/-- What `memory` promises of its pointer. -/
structure Grants (e : BpfEnvironment) (p : Pointer) (size : ℕ) (write : Bool) : Prop where
  inside : e.WellSized → e.Inside p size
  writable : write = true → e.Writable p.region

/-- A pointer to part of one value of a map. -/
theorem inside_value {id : Fin bpfMaps} {index within size : UInt32} (hsized : e.WellSized)
    (hvalues : (e.maps id).values ≠ none) (hvalueSize : (e.maps id).valueSize ≤ 256)
    (hindex : index < (e.maps id).capacity) (hbound : index.toNat ≤ 4095)
    (hwithin : within ≤ (e.maps id).valueSize) (hsize : size ≤ (e.maps id).valueSize - within) :
    e.Inside ⟨.values id, (index * (e.maps id).valueSize).toNat + within.toNat⟩ size.toNat := by
  obtain ⟨bytes, hbytes⟩ := Option.ne_none_iff_exists'.mp hvalues
  have hextent : e.extent (.values id) = some bytes.length := by
    rw [BpfEnvironment.extent, hbytes]
    rfl
  have hlimit : (256 : UInt32).toNat = 256 := rfl
  rw [UInt32.le_iff_toNat_le, UInt32.toNat_sub_of_le _ _ hwithin] at hsize
  rw [UInt32.le_iff_toNat_le] at hvalueSize hwithin
  rw [UInt32.lt_iff_toNat_lt] at hindex
  have hproduct : index.toNat * (e.maps id).valueSize.toNat ≤ 4095 * 256 :=
    Nat.mul_le_mul hbound hvalueSize
  have hoffset : (index * (e.maps id).valueSize).toNat =
      index.toNat * (e.maps id).valueSize.toNat := by
    rw [UInt32.toNat_mul, Nat.mod_eq_of_lt (by omega)]
  refine ⟨bytes.length, hextent, ?_⟩
  calc
    (index * (e.maps id).valueSize).toNat + within.toNat + size.toNat
      ≤ index.toNat * (e.maps id).valueSize.toNat + (e.maps id).valueSize.toNat := by omega
    _ = (index.toNat + 1) * (e.maps id).valueSize.toNat := (Nat.succ_mul _ _).symm
    _ ≤ (e.maps id).capacity.toNat * (e.maps id).valueSize.toNat := Nat.mul_le_mul_right _ hindex
    _ ≤ bytes.length := (hsized.maps id).values bytes hbytes

theorem memory_reads (h : vm.Confined e) (address : UInt64) (size : UInt32) (write : Bool) :
    Reads e (memory address size write) vm fun r ↦ ∀ p, r = some p → Grants e p size.toNat write := by
  have hsize : size.toUInt64.toNat = size.toNat := UInt32.toNat_toUInt64 size
  refine Reads.bind (Reads.get rfl) ?_
  rintro _ rfl
  refine Reads.ite (fun hstack ↦ Reads.pure ?_) fun _ ↦ ?_
  · rintro _ ⟨⟩
    exact ⟨fun _ ↦ ⟨512, rfl, hsize ▸ covers_le hstack⟩, fun _ ↦ trivial⟩
  refine Reads.ite (fun hcontext ↦ Reads.pure ?_) fun _ ↦ ?_
  · rintro _ ⟨⟩
    rw [Bool.and_eq_true, Bool.not_eq_true'] at hcontext
    have hcovers := covers_le hcontext.2
    rw [hsize, UInt32.toNat_toUInt64, h.environment.contextSize] at hcovers
    refine ⟨fun hsized ↦ ⟨_, rfl, hcovers.trans hsized.context⟩, fun hwrite ↦ ?_⟩
    exact absurd (hcontext.1.symm.trans hwrite) Bool.false_ne_true
  refine Reads.ite (fun hpacket ↦ Reads.pure ?_) fun _ ↦ ?_
  · rintro _ ⟨⟩
    rw [Bool.and_eq_true, Bool.not_eq_true'] at hpacket
    have hcovers := covers_le hpacket.2
    rw [hsize, UInt32.toNat_toUInt64, h.environment.packetSize] at hcovers
    refine ⟨fun hsized ↦ ⟨_, rfl, hcovers.trans hsized.packet⟩, fun hwrite ↦ ?_⟩
    exact absurd (hpacket.1.symm.trans hwrite) Bool.false_ne_true
  refine Reads.ite (fun _ ↦ Reads.pure ?_) fun hvalues ↦ ?_
  · rintro _ ⟨⟩
  obtain ⟨hlow, hhigh⟩ := not_or.mp hvalues
  refine Reads.bind (mapIndex_reads (toNat_mapId_lt hlow hhigh)) fun id _ ↦ ?_
  have hmap := h.environment.maps id
  refine Reads.ite (fun _ ↦ Reads.pure ?_) fun hgranted ↦ Reads.pure ?_
  · rintro _ ⟨⟩
  rintro _ ⟨⟩
  rw [hmap.valueSize, hmap.capacity, hmap.writable] at hgranted
  simp only [not_or, not_and, ge_iff_le, gt_iff_lt, UInt32.not_le, UInt32.not_lt,
    Bool.not_eq_false] at hgranted
  obtain ⟨hvalues, hvalueSize, hindex, hwithin, hbound, hwrite⟩ := hgranted
  rw [hmap.valueSize]
  refine ⟨fun hsized ↦ ?_, hwrite⟩
  exact inside_value hsized (hmap.values_ne_none hvalues) hvalueSize hindex (toNat_index_le _)
    hwithin hbound

/-! ## Map lookups -/

theorem Inside.le {p : Pointer} {size less : ℕ} (h : e.Inside p size) (hle : less ≤ size) :
    e.Inside p less := by
  obtain ⟨limit, hextent, hlimit⟩ := h
  exact ⟨limit, hextent, by omega⟩

theorem samePrefix_reads (h : vm.Confined e) {key prefixKey : Pointer} {bits : ℕ}
    (hkey : e.WellSized → e.Inside key 20) (hother : e.WellSized → e.Inside prefixKey 20)
    (hbits : bits ≤ 128) : Reads e (samePrefix key prefixKey bits) vm fun _ ↦ True := by
  refine Reads.allM fun b hb ↦ ?_
  have hb' := List.mem_range.mp hb
  refine Reads.bind (load_reads h fun hsized ↦ Inside.le (hkey hsized) (by omega)) fun _ _ ↦ ?_
  refine Reads.bind (load_reads h fun hsized ↦ Inside.le (hother hsized) (by omega)) fun _ _ ↦ ?_
  exact Reads.pure (by trivial)

theorem longestPrefix_reads (h : vm.Confined e) {id : Fin bpfMaps} {entries : ℕ} {key : Pointer}
    {index : UInt32} (hkey : e.WellSized → e.Inside key 20)
    (hkeys : e.WellSized → ∀ i < entries, e.Inside ⟨.keys id, i * 20⟩ 20) :
    Reads e (longestPrefix id entries key index) vm fun _ ↦ True := by
  refine Reads.foldlM (by trivial) fun i hi best _ ↦ ?_
  have hentry := fun hsized ↦ hkeys hsized i (List.mem_range.mp hi)
  refine Reads.bind (readLe_reads h fun hsized ↦ Inside.le (hentry hsized) (by omega)) fun bits _ ↦ ?_
  refine Reads.ite (fun _ ↦ Reads.pure (by trivial)) fun hbits ↦ ?_
  have hle : bits.toUInt32.toNat ≤ 128 := by
    simp only [Bool.or_eq_true, decide_eq_true_eq, not_or, gt_iff_lt, UInt32.not_lt] at hbits
    exact UInt32.le_iff_toNat_le.mp hbits.1.2
  refine Reads.bind (samePrefix_reads h hkey hentry hle) fun _ _ ↦ ?_
  exact Reads.ite (fun _ ↦ Reads.pure (by trivial)) fun _ ↦ Reads.pure (by trivial)

theorem element_reads (h : vm.Confined e) {id : Fin bpfMaps} {index : UInt32}
    (hvalues : (e.maps id).values ≠ none) (hcapacity : (e.maps id).capacity ≤ 4096) :
    Reads e (element id (vm.environment.maps id) index) vm fun _ ↦ True := by
  have hmap := h.environment.maps id
  refine Reads.ite (fun _ ↦ Reads.pure (by trivial)) fun hindex ↦ ?_
  refine Reads.ite (fun _ ↦ ?_) fun _ ↦ Reads.pure (by trivial)
  refine Reads.ite (fun _ ↦ Reads.pure (by trivial)) fun hsize ↦ ?_
  have hinside : e.WellSized → e.Inside ⟨.values id, (index * 4).toNat⟩ 4 := by
    intro hsized
    rw [hmap.capacity] at hindex
    have hindex' := UInt32.lt_iff_toNat_lt.mp (UInt32.not_le.mp hindex)
    have hcapacity' := UInt32.le_iff_toNat_le.mp hcapacity
    have hsize' : (e.maps id).valueSize = 4 := hmap.valueSize.symm.trans (not_ne_iff.mp hsize)
    have hlimit : (4096 : UInt32).toNat = 4096 := rfl
    have hvalue : e.Inside ⟨.values id, (index * (e.maps id).valueSize).toNat + (0 : UInt32).toNat⟩
        (4 : UInt32).toNat := by
      refine inside_value hsized hvalues ?_ (UInt32.not_le.mp hindex) (by omega) ?_ ?_ <;>
        rw [hsize'] <;> decide
    rw [hsize'] at hvalue
    exact hvalue
  refine Reads.bind (readLe_reads h hinside) fun _ _ ↦ ?_
  exact Reads.ite (fun _ ↦ Reads.pure (by trivial)) fun _ ↦ Reads.pure (by trivial)

/-- The keys of a prefix map lie behind one another. -/
theorem inside_keys {id : Fin bpfMaps} (hsized : e.WellSized) (htype : (e.maps id).type = bpfLpm)
    (hkeys : (e.maps id).keys ≠ none) {i : ℕ} (hi : i < (e.maps id).entries.toNat) :
    e.Inside ⟨.keys id, i * 20⟩ 20 := by
  obtain ⟨bytes, hbytes⟩ := Option.ne_none_iff_exists'.mp hkeys
  have hextent : e.extent (.keys id) = some bytes.length := by
    rw [BpfEnvironment.extent, hbytes]
    rfl
  refine ⟨bytes.length, hextent, ?_⟩
  calc
    i * 20 + 20 = (i + 1) * 20 := (Nat.succ_mul _ _).symm
    _ ≤ (e.maps id).entries.toNat * 20 := Nat.mul_le_mul_right _ hi
    _ ≤ bytes.length := (hsized.maps id).keys htype bytes hbytes

/-- The map a handle stands for. -/
theorem toNat_handle_lt {handle : UInt64} (hlow : ¬ handle < bpfHandles)
    (hhigh : ¬ handle ≥ bpfHandles + 7) : (handle - bpfHandles).toNat < bpfMaps := by
  have hbase : bpfHandles.toNat = 0x80000000 := rfl
  have hlimit : (bpfHandles + 7).toNat = 0x80000007 := rfl
  have hmaps : bpfMaps = 7 := rfl
  have hhigh' := UInt64.not_le.mp hhigh
  rw [UInt64.lt_iff_toNat_lt, hlimit] at hhigh'
  rw [UInt64.toNat_sub_of_le _ _ (UInt64.not_lt.mp hlow)]
  omega

theorem lookup_reads (h : vm.Confined e) (handle keyAddress : UInt64) :
    Reads e (lookup handle keyAddress) vm fun _ ↦ True := by
  refine Reads.ite (fun _ ↦ Reads.pure (by trivial)) fun hhandle ↦ ?_
  obtain ⟨hlow, hhigh⟩ := not_or.mp hhandle
  have hid := toNat_handle_lt hlow hhigh
  refine Reads.bind (mapIndex_reads hid) fun id _ ↦ ?_
  refine Reads.bind (Reads.get rfl) ?_
  rintro _ rfl
  have hmap := h.environment.maps id
  refine Reads.ite (fun _ ↦ Reads.pure (by trivial)) fun hchecks ↦ ?_
  simp only [not_or, not_and, gt_iff_lt, UInt32.not_lt] at hchecks
  obtain ⟨hvalues, -, -, hcapacity, hkeySize⟩ := hchecks
  refine Reads.bind (memory_reads h keyAddress _ false) fun key hkey ↦ ?_
  cases key with
  | none => exact Reads.pure (by trivial)
  | some key =>
    have hgrant := hkey key rfl
    have hfour : e.WellSized → e.Inside key 4 := by
      intro hsized
      refine Inside.le (hgrant.inside hsized) ?_
      by_cases hshort : (vm.environment.maps id).keySize = 4
      · rw [hshort]
        decide
      · rw [not_ne_iff.mp (hkeySize hshort)]
        decide
    have hvalues' := hmap.values_ne_none hvalues
    rw [hmap.capacity] at hcapacity
    refine Reads.bind (readLe_reads h hfour) fun index _ ↦ ?_
    refine Reads.ite (fun htype ↦ ?_) fun _ ↦ ?_
    · refine Reads.ite (fun _ ↦ Reads.pure (by trivial)) fun hlpm ↦ ?_
      simp only [not_or, ne_eq, not_not] at hlpm
      obtain ⟨hlength, hkeys, -⟩ := hlpm
      have htwenty : e.WellSized → e.Inside key 20 := by
        intro hsized
        have hinside := hgrant.inside hsized
        rw [hlength] at hinside
        exact hinside
      have hentries : e.WellSized →
          ∀ i < (vm.environment.maps id).entries.toNat, e.Inside ⟨.keys id, i * 20⟩ 20 := by
        intro hsized i hi
        rw [hmap.entries] at hi
        exact inside_keys hsized (hmap.type.symm.trans htype) (hmap.keys ▸ hkeys) hi
      refine Reads.bind (longestPrefix_reads h htwenty hentries) fun best _ ↦ ?_
      cases best with
      | none => exact Reads.pure (by trivial)
      | some best => exact element_reads h hvalues' hcapacity
    · refine Reads.ite (fun _ ↦ Reads.pure (by trivial)) fun _ ↦ ?_
      exact element_reads h hvalues' hcapacity

end Reading

end JordyOS.Bpf
