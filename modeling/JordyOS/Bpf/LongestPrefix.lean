import JordyOS.Bpf.Bytes
import JordyOS.Bpf.Translation
import JordyOS.Net.Prefix

/-!
# Longest-prefix match

What `lookup` finds in a map of prefixes: among the entries that agree with the key on all their bits,
one of the greatest length, and of those the first.
-/

namespace JordyOS.Bpf

open Machine Net

variable {vm : Vm}

/-! ## Bits -/

/-- Two bytes agree in a bit when their difference has a zero there. -/
theorem difference_highBit (x y : UInt8) {j : ℕ} (hj : j < 8) :
    ((x ^^^ y) &&& (0x80 >>> UInt8.ofNat j) == 0) =
      ((x &&& (0x80 >>> UInt8.ofNat j) != 0) == (y &&& (0x80 >>> UInt8.ofNat j) != 0)) := by
  have hdifference := and_highBit (x ^^^ y) hj
  rw [UInt8.toNat_xor, Nat.testBit_xor] at hdifference
  have hzero : ((x ^^^ y) &&& (0x80 >>> UInt8.ofNat j) == 0) =
      !((x ^^^ y) &&& (0x80 >>> UInt8.ofNat j) != 0) := (Bool.not_not _).symm
  rw [and_highBit x hj, and_highBit y hj, hzero, hdifference]
  cases x.toNat.testBit (7 - j) <;> cases y.toNat.testBit (7 - j) <;> rfl

/-! ## The search -/

/-- Bit by bit, as far as the prefix reaches. -/
theorem samePrefix_returns {key entry : Pointer} {bits : ℕ} (hkey : vm.Holds key 20)
    (hentry : vm.Holds entry 20) (hbits : bits ≤ 128) :
    ∃ same, Returns (samePrefix key entry bits) vm same vm ∧
      (same = true ↔ SameBits ((vm.view key).shift 4) ((vm.view entry).shift 4) bits) := by
  refine ⟨_, Returns.allM (p := fun b ↦ addressBit ((vm.view key).shift 4) b ==
    addressBit ((vm.view entry).shift 4) b) fun b hb ↦ ?_, ?_⟩
  · have hb' := List.mem_range.mp hb
    refine Returns.bind (load_returns hkey (by omega)) (Returns.bind (load_returns hentry (by omega)) ?_)
    exact Returns.pure_of_eq (difference_highBit _ _ (Nat.mod_lt b (by decide)))
  · rw [List.all_eq_true]
    exact forall_congr' fun b ↦ by rw [List.mem_range, beq_iff_eq]

section Search

variable {id : Fin bpfMaps} {key : Memory}

/-- The length an entry of a map of prefixes gives for its prefix. -/
def Vm.prefixLength (vm : Vm) (id : Fin bpfMaps) (i : ℕ) : ℕ :=
  (vm.view ⟨.keys id, i * 20⟩).readWord 0 4

/-- Entry `i` is no longer than the key and agrees with it on all its bits. -/
def Vm.Matches (vm : Vm) (id : Fin bpfMaps) (key : Memory) (i : ℕ) : Prop :=
  vm.prefixLength id i ≤ min (key.readWord 0 4) 128 ∧
    SameBits (key.shift 4) ((vm.view ⟨.keys id, i * 20⟩).shift 4) (vm.prefixLength id i)

/-- Entry `k` is the first of the longest among the matching ones below `n`. -/
structure Vm.Longest (vm : Vm) (id : Fin bpfMaps) (key : Memory) (n k : ℕ) : Prop where
  lt : k < n
  hit : vm.Matches id key k
  le : ∀ i < n, vm.Matches id key i → vm.prefixLength id i ≤ vm.prefixLength id k
  first : ∀ i < n, vm.Matches id key i → vm.prefixLength id i = vm.prefixLength id k → k ≤ i

/-- What the loop has found among the first `n` entries. -/
def Vm.Found (vm : Vm) (id : Fin bpfMaps) (key : Memory) (n : ℕ) : Option (ℕ × UInt32) → Prop
  | none => ∀ i < n, ¬ vm.Matches id key i
  | some (k, bits) => vm.Longest id key n k ∧ bits.toNat = vm.prefixLength id k

/-- A further entry that does not match changes nothing. -/
theorem Vm.Found.skip {n : ℕ} {best : Option (ℕ × UInt32)} (h : vm.Found id key n best)
    (hskip : ∀ k bits, best = some (k, bits) → vm.Matches id key n →
      vm.prefixLength id n ≤ vm.prefixLength id k) (hnone : best = none → ¬ vm.Matches id key n) :
    vm.Found id key (n + 1) best := by
  cases best with
  | none =>
    intro i hi
    rcases Nat.lt_succ_iff_lt_or_eq.mp hi with hlt | rfl
    · exact h i hlt
    · exact hnone rfl
  | some best =>
    obtain ⟨k, bits⟩ := best
    obtain ⟨hlongest, hbits⟩ := h
    refine ⟨⟨Nat.lt_succ_of_lt hlongest.lt, hlongest.hit, fun i hi hmatch ↦ ?_,
      fun i hi hmatch hlength ↦ ?_⟩, hbits⟩
    · rcases Nat.lt_succ_iff_lt_or_eq.mp hi with hlt | rfl
      · exact hlongest.le i hlt hmatch
      · exact hskip k bits rfl hmatch
    · rcases Nat.lt_succ_iff_lt_or_eq.mp hi with hlt | rfl
      · exact hlongest.first i hlt hmatch hlength
      · exact Nat.le_of_lt hlongest.lt

/-- A matching entry that is longer than all before it. -/
theorem Vm.Found.take {n : ℕ} {best : Option (ℕ × UInt32)} {bits : UInt32}
    (h : vm.Found id key n best) (hmatch : vm.Matches id key n)
    (hbits : bits.toNat = vm.prefixLength id n)
    (hlonger : ∀ k b, best = some (k, b) → vm.prefixLength id k < vm.prefixLength id n) :
    vm.Found id key (n + 1) (some (n, bits)) := by
  have hbefore : ∀ i < n, vm.Matches id key i → vm.prefixLength id i < vm.prefixLength id n := by
    intro i hi hother
    cases best with
    | none => exact absurd hother (h i hi)
    | some best => exact Nat.lt_of_le_of_lt (h.1.le i hi hother) (hlonger best.1 best.2 rfl)
  refine ⟨⟨Nat.lt_succ_self n, hmatch, fun i hi hother ↦ ?_, fun i hi hother hlength ↦ ?_⟩, hbits⟩
  · rcases Nat.lt_succ_iff_lt_or_eq.mp hi with hlt | rfl
    · exact Nat.le_of_lt (hbefore i hlt hother)
    · exact le_rfl
  · rcases Nat.lt_succ_iff_lt_or_eq.mp hi with hlt | rfl
    · exact absurd hlength (Nat.ne_of_lt (hbefore i hlt hother))
    · exact le_rfl

/-- One round of the loop: the entry is passed over, compared in vain, or the best so far. -/
theorem longestRound_returns {p : Pointer} {n : ℕ} {index : UInt32} {best : Option (ℕ × UInt32)}
    (hkey : vm.Holds p 20) (hentry : vm.Holds ⟨.keys id, n * 20⟩ 20)
    (hindex : index.toNat = (vm.view p).readWord 0 4) (hfound : vm.Found id (vm.view p) n best) :
    ∃ next, Returns (do
      let bits := (← readLe ⟨.keys id, n * 20⟩ 4).toUInt32
      if decide (bits > index) || decide (bits > 128) || best.any fun b ↦ decide (bits ≤ b.2) then
        pure best
      else if ← samePrefix p ⟨.keys id, n * 20⟩ bits.toNat then pure (some (n, bits))
      else pure best : Exec (Option (ℕ × UInt32))) vm next vm ∧
      vm.Found id (vm.view p) (n + 1) next := by
  have hread := readLe_returns (hentry.le (by decide : 4 ≤ 20))
  obtain ⟨bits, hbits⟩ : ∃ bits, bits = (leWord (vm.view ⟨.keys id, n * 20⟩) 4).toUInt32 := ⟨_, rfl⟩
  have hlength : bits.toNat = vm.prefixLength id n := by
    rw [hbits, toNat_firstWord]
    rfl
  have hlimit : (128 : UInt32).toNat = 128 := rfl
  by_cases hskip : decide (bits > index) || decide (bits > 128) ||
      best.any fun b ↦ decide (bits ≤ b.2)
  · refine ⟨best, Returns.bind hread ?_, ?_⟩
    · rw [← hbits]
      exact Returns.ite_pos hskip Returns.pure
    · simp only [Bool.or_eq_true, decide_eq_true_eq, gt_iff_lt, UInt32.lt_iff_toNat_lt, hlimit,
        hindex, hlength] at hskip
      have hshort : ¬ vm.Matches id (vm.view p) n ∨ best.any (fun b ↦ decide (bits ≤ b.2)) = true := by
        refine hskip.imp_left fun hlong hmatch ↦ ?_
        have hle := hmatch.1
        omega
      refine hfound.skip ?_ ?_
      · rintro k b rfl hmatch
        have hle := hshort.resolve_left (not_not_intro hmatch)
        rw [Option.any_some, decide_eq_true_eq, UInt32.le_iff_toNat_le, hlength, hfound.2] at hle
        exact hle
      · rintro rfl
        exact hshort.resolve_right Bool.false_ne_true
  · have hgood := hskip
    simp only [Bool.or_eq_true, decide_eq_true_eq, gt_iff_lt, UInt32.lt_iff_toNat_lt, hlimit,
      hindex, hlength, not_or, Nat.not_lt] at hgood
    obtain ⟨⟨hkeyLength, hmax⟩, hbetter⟩ := hgood
    obtain ⟨same, hsame, hiff⟩ := samePrefix_returns hkey hentry (hlength ▸ hmax)
    have hmatches : same = true ↔ vm.Matches id (vm.view p) n := by
      rw [hiff, hlength]
      exact ⟨fun h ↦ ⟨Nat.le_min.mpr ⟨hkeyLength, hmax⟩, h⟩, fun h ↦ h.2⟩
    refine ⟨if same then some (n, bits) else best, Returns.bind hread ?_, ?_⟩
    · rw [← hbits]
      refine Returns.ite_neg hskip (Returns.bind hsame ?_)
      exact Returns.ite Iff.rfl (fun _ ↦ Returns.pure) fun _ ↦ Returns.pure
    · cases same with
      | true =>
        refine hfound.take (hmatches.mp rfl) hlength ?_
        rintro k b rfl
        rw [Option.any_some, decide_eq_true_eq, UInt32.le_iff_toNat_le, hlength, hfound.2] at hbetter
        exact Nat.lt_of_not_le hbetter
      | false =>
        have hno : ¬ vm.Matches id (vm.view p) n := fun h ↦ Bool.false_ne_true (hmatches.mpr h)
        exact hfound.skip (fun k b _ hmatch ↦ absurd hmatch hno) fun _ ↦ hno

/-- The loop over the first `n` entries. -/
theorem longestPrefix_returns {p : Pointer} {entries : ℕ} {index : UInt32}
    (hkey : vm.Holds p 20) (hkeys : vm.Holds ⟨.keys id, 0⟩ (entries * 20))
    (hindex : index.toNat = (vm.view p).readWord 0 4) :
    ∃ best, Returns (longestPrefix id entries p index) vm best vm ∧
      vm.Found id (vm.view p) entries best := by
  unfold longestPrefix
  induction entries with
  | zero => exact ⟨none, Returns.pure, fun i hi ↦ absurd hi (Nat.not_lt_zero i)⟩
  | succ n ih =>
    obtain ⟨best, hbest, hfound⟩ := ih (hkeys.le (by omega))
    have hentry : vm.Holds ⟨.keys id, n * 20⟩ 20 := by
      obtain ⟨bytes, hbytes, hlength⟩ := hkeys
      exact ⟨bytes, hbytes, by dsimp only at hlength ⊢; omega⟩
    obtain ⟨next, hnext, hfound'⟩ := longestRound_returns hkey hentry hindex hfound
    refine ⟨next, ?_, hfound'⟩
    rw [List.range_succ, List.foldlM_append]
    exact Returns.bind hbest (Returns.bind hnext Returns.pure)

end Search

/-! ## The lookup -/

/-- A map of prefixes as `lookup` accepts it. -/
structure Vm.PrefixMap (vm : Vm) (id : Fin bpfMaps) : Prop where
  type : (vm.environment.maps id).type = bpfLpm
  keySize : (vm.environment.maps id).keySize = 20
  values : (vm.environment.maps id).values ≠ none
  valueSize : 1 ≤ (vm.environment.maps id).valueSize ∧ (vm.environment.maps id).valueSize ≤ 256
  capacity : (vm.environment.maps id).capacity ≤ 4096
  entries : (vm.environment.maps id).entries ≤ (vm.environment.maps id).capacity
  keys : vm.Holds ⟨.keys id, 0⟩ ((vm.environment.maps id).entries.toNat * 20)

theorem elementAddress_ne_zero (id : Fin bpfMaps) {k : UInt32} (hk : k.toNat < 4096) :
    elementAddress id k ≠ 0 := by
  intro hzero
  have haddress := toNat_elementAddress id hk
  rw [hzero] at haddress
  have hnull : (0 : UInt64).toNat = 0 := rfl
  have hbase : valuesBase = 0x40000000 := rfl
  unfold valueAddress at haddress
  omega

section Lookup

variable {id : Fin bpfMaps}

/-- What `lookup` answers for the outcome of the search. -/
def bestAddress (id : Fin bpfMaps) : Option (ℕ × UInt32) → UInt64
  | none => 0
  | some best => elementAddress id (UInt32.ofNat best.1)

theorem lookup_returns (hmap : vm.PrefixMap id) {keyAddress : UInt64} {key : Pointer}
    (hkey : Returns (memory keyAddress 20 false) vm (some key) vm) (hbytes : vm.Holds key 20)
    (hlength : (vm.view key).readWord 0 4 ≤ 128) :
    ∃ best, Returns (lookup (bpfHandles + UInt64.ofNat id) keyAddress) vm (some (bestAddress id best)) vm ∧
      vm.Found id (vm.view key) (vm.environment.maps id).entries.toNat best := by
  obtain ⟨hhandle, hindexed⟩ := mapIndex_handle id
  have hindex := toNat_firstWord (vm.view key)
  obtain ⟨best, hbest, hfound⟩ := longestPrefix_returns hbytes hmap.keys hindex
  have hchecks : ¬ ((vm.environment.maps id).values = none ∨ (vm.environment.maps id).valueSize = 0 ∨
      (vm.environment.maps id).valueSize > 256 ∨ (vm.environment.maps id).capacity > 4096 ∨
      ((vm.environment.maps id).keySize ≠ 4 ∧ (vm.environment.maps id).keySize ≠ 20)) := by
    rintro (h | h | h | h | ⟨-, h⟩)
    · exact hmap.values h
    · exact absurd (h ▸ hmap.valueSize.1) (by decide)
    · exact absurd hmap.valueSize.2 (UInt32.not_le.mpr h)
    · exact absurd hmap.capacity (UInt32.not_le.mpr h)
    · exact h hmap.keySize
  have hprefix : ¬ ((vm.environment.maps id).keySize ≠ 20 ∨ (vm.environment.maps id).keys = none ∨
      (leWord (vm.view key) 4).toUInt32 > 128 ∨
      (vm.environment.maps id).entries > (vm.environment.maps id).capacity) := by
    rintro (h | h | h | h)
    · exact h hmap.keySize
    · obtain ⟨bytes, hsome, -⟩ := hmap.keys
      exact absurd (h.symm.trans hsome) (by simp)
    · have hlimit : (128 : UInt32).toNat = 128 := rfl
      rw [gt_iff_lt, UInt32.lt_iff_toNat_lt, hindex] at h
      omega
    · exact absurd hmap.entries (UInt32.not_le.mpr h)
  refine ⟨best, Returns.ite_neg hhandle ?_, hfound⟩
  rw [hindexed]
  have hmemory : Returns (memory keyAddress (vm.environment.maps id).keySize false) vm (some key) vm := by
    rw [hmap.keySize]
    exact hkey
  refine Returns.bind Returns.pure (Returns.bind Returns.get (Returns.ite_neg hchecks ?_))
  refine Returns.bind hmemory (Returns.bind (readLe_returns (hbytes.le (by decide : 4 ≤ 20))) ?_)
  refine Returns.ite_pos hmap.type (Returns.ite_neg hprefix (Returns.bind hbest ?_))
  cases best with
  | none => exact Returns.pure
  | some best =>
    have hlt : best.1 < (vm.environment.maps id).entries.toNat := hfound.1.lt
    have hentries := UInt32.le_iff_toNat_le.mp hmap.entries
    have hbound := (vm.environment.maps id).capacity.toNat_lt
    have hsize : UInt32.size = 2 ^ 32 := rfl
    have hword : (UInt32.ofNat best.1).toNat = best.1 := UInt32.toNat_ofNat_of_lt' (by omega)
    have hbelow : ¬ UInt32.ofNat best.1 ≥ (vm.environment.maps id).capacity := by
      rw [ge_iff_le, UInt32.le_iff_toNat_le, hword]
      omega
    have htype : (vm.environment.maps id).type ≠ bpfMapArray := by
      rw [hmap.type]
      decide
    exact Returns.ite_neg hbelow (Returns.ite_neg htype Returns.pure)

end Lookup

/-- `lookup` in a map of prefixes answers null when no entry matches the key, and otherwise the value
of the first of the longest entries that do. -/
theorem lookup_longestPrefix (vm : Vm) (id : Fin bpfMaps) (hmap : vm.PrefixMap id)
    (keyAddress : UInt64) (key : Pointer)
    (hkey : memory keyAddress 20 false vm = .ok (some key) vm) (hbytes : vm.Holds key 20)
    (hlength : (vm.view key).readWord 0 4 ≤ 128) :
    ∃ r, lookup (bpfHandles + UInt64.ofNat id) keyAddress vm = .ok (some r) vm ∧
      (r = 0 ↔ ∀ i < (vm.environment.maps id).entries.toNat, ¬ vm.Matches id (vm.view key) i) ∧
      (r ≠ 0 → ∃ k, vm.Longest id (vm.view key) (vm.environment.maps id).entries.toNat k ∧
        r = elementAddress id (UInt32.ofNat k)) := by
  obtain ⟨best, hlookup, hfound⟩ := lookup_returns hmap hkey hbytes hlength
  refine ⟨bestAddress id best, hlookup, ?_⟩
  cases best with
  | none => exact ⟨⟨fun _ ↦ hfound, fun _ ↦ rfl⟩, fun hne ↦ absurd rfl hne⟩
  | some best =>
    have hlongest := hfound.1
    have hentries := UInt32.le_iff_toNat_le.mp hmap.entries
    have hcapacity : (vm.environment.maps id).capacity.toNat ≤ 4096 :=
      UInt32.le_iff_toNat_le.mp hmap.capacity
    have hlt := hlongest.lt
    have hsize : UInt32.size = 2 ^ 32 := rfl
    have hword : (UInt32.ofNat best.1).toNat = best.1 := UInt32.toNat_ofNat_of_lt' (by omega)
    have hne : bestAddress id (some best) ≠ 0 := elementAddress_ne_zero id (by omega)
    refine ⟨⟨fun hzero ↦ absurd hzero hne, fun hno ↦ ?_⟩, fun _ ↦ ⟨best.1, hlongest, rfl⟩⟩
    exact absurd hlongest.hit (hno best.1 hlongest.lt)

/-- The prefixes 10.0.0.0/8 and 10.1.0.0/16, and the address 10.1.2.3 as the packet. -/
def prefixEnvironment : BpfEnvironment where
  context := []
  packet := [32, 0, 0, 0, 10, 1, 2, 3] ++ List.replicate 12 0
  contextSize := 0
  packetSize := 20
  maps _ := ⟨bpfLpm, 20, 4, 2, 2, some [1, 0, 0, 0, 2, 0, 0, 0],
    some ([8, 0, 0, 0, 10, 0, 0, 0] ++ List.replicate 12 0 ++
      ([16, 0, 0, 0, 10, 1, 0, 0] ++ List.replicate 12 0)), false⟩

theorem lookup_longestPrefix_packet :
    ∃ r, lookup (bpfHandles + UInt64.ofNat (0 : Fin bpfMaps)) bpfData (start prefixEnvironment) =
        .ok (some r) (start prefixEnvironment) ∧
      (r = 0 ↔ ∀ i < ((start prefixEnvironment).environment.maps 0).entries.toNat,
        ¬ (start prefixEnvironment).Matches 0 ((start prefixEnvironment).view ⟨.packet, 0⟩) i) ∧
      (r ≠ 0 → ∃ k, (start prefixEnvironment).Longest 0 ((start prefixEnvironment).view ⟨.packet, 0⟩)
        ((start prefixEnvironment).environment.maps 0).entries.toNat k ∧
        r = elementAddress 0 (UInt32.ofNat k)) :=
  lookup_longestPrefix (start prefixEnvironment) 0
    ⟨rfl, rfl, by decide, by decide, by decide, by decide, _, rfl, by decide⟩ bpfData ⟨.packet, 0⟩ rfl
    ⟨_, rfl, by decide⟩ (by decide +kernel)

example : (lookup bpfHandles bpfData).run' (start prefixEnvironment) = some (some (elementAddress 0 1)) := by
  decide +kernel

end JordyOS.Bpf
