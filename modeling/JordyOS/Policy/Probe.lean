import JordyOS.Bpf.Access
import JordyOS.Policy.Embedded

/-!
# A program that looks at one slot

A validated policy program whose verdict is a comparison of one slot of `indexes` with a constant.  It goes
to the slot by its address, not through `lookup`, so that the number of entries of the map does not matter.
-/

namespace JordyOS.Policy

open Machine Net Bpf

/-! ## The program -/

/-- `r1 = address`, where the address is that of slot `k`. -/
def probeAddress (k : ℕ) : BpfInsn := ⟨0x18, 0x01, 0, Int32.ofNat (valueAddress 3 k 0)⟩

/-- `if (w2 != value) goto +1`. -/
def probeCompare (value : UInt32) : BpfInsn := ⟨0x56, 0x02, 1, value.toInt32⟩

/-- Accepts if slot `k` holds the value. -/
def probe (k : ℕ) (value : UInt32) : List BpfInsn :=
  [probeAddress k, ⟨0, 0, 0, 0⟩, ⟨0x61, 0x12, 0, 0⟩, ⟨0xb7, 0, 0, 1⟩, probeCompare value, ⟨0xb7, 0, 0, 2⟩,
    ⟨0x95, 0, 0, 0⟩]

variable {k : ℕ}

theorem bpfValidate_probe (k : ℕ) (value : UInt32) : bpfValidate (probe k value) = true := by
  have hlength : (probe k value).length = 7 := rfl
  have hshort : ¬ ((probe k value).length == 0 || decide ((probe k value).length > bpfMaxInsns)) = true := by
    rw [hlength]
    decide
  have htarget : target (probe k value) 4 1 = true := by
    unfold target
    rw [hlength]
    rfl
  have hprobe : probe k value = [⟨0x18, 0x01, 0, Int32.ofNat (valueAddress 3 k 0)⟩, ⟨0, 0, 0, 0⟩,
    ⟨0x61, 0x12, 0, 0⟩, ⟨0xb7, 0, 0, 1⟩, ⟨0x56, 0x02, 1, value.toInt32⟩, ⟨0xb7, 0, 0, 2⟩,
    ⟨0x95, 0, 0, 0⟩] := rfl
  unfold bpfValidate
  rw [if_neg hshort]
  generalize probe k value = code at htarget hprobe ⊢
  nth_rewrite 2 [hprobe]
  simp +decide [validateFrom, validWide, validNarrow, validAlu, validAccess, validBranch, BpfInsn.dst,
    BpfInsn.src, BpfInsn.cls, BpfInsn.op, BpfInsn.fromRegister, htarget]

/-! ## Rounds of the interpreter -/

variable {vm t u : Vm} {code : List BpfInsn}

/-- After so many rounds the interpreter is in the second state. -/
def Leads (code : List BpfInsn) (rounds : ℕ) (vm t : Vm) : Prop :=
  ∀ fuel, loop code (fuel + rounds) vm = loop code fuel t

theorem Leads.trans {first second : ℕ} (hfirst : Leads code first vm t) (hsecond : Leads code second t u) :
    Leads code (second + first) vm u := fun fuel ↦ by
  rw [← Nat.add_assoc, hfirst, hsecond]

theorem get_eq (vm : Vm) : (MonadStateOf.get : Exec Vm) vm = .ok vm vm := rfl

theorem leads_step (hpc : vm.pc < code.length) (h : Returns (step code) vm ⟨⟩ t) : Leads code 1 vm t := by
  intro fuel
  unfold Returns at h
  change (do
    if (← get).pc < code.length then do
      step code
      loop code fuel
    else throw .pastEnd : Exec Empty) vm = _
  simp only [bind, EStateM.bind, get, getThe, get_eq, hpc, if_true, h]

/-- A round at an instruction of one slot. -/
theorem leads_execute {i : BpfInsn} (hslot : code[vm.pc]? = some i)
    (h : Returns (execute code i) vm.fetched ⟨⟩ t) : Leads code 1 vm t :=
  leads_step (List.getElem?_eq_some_iff.mp hslot).1 (step_returns hslot h)

theorem loop_exit (hslot : code[vm.pc]? = some ⟨0x95, 0, 0, 0⟩) (fuel : ℕ) :
    loop code (fuel + 1) vm = .error (.exit vm.registers[0]) vm.fetched := by
  have hpc : vm.pc < code.length := (List.getElem?_eq_some_iff.mp hslot).1
  have hstep : step code vm = .error (.exit vm.registers[0]) vm.fetched := by
    unfold step nextSlot
    simp only [bind, EStateM.bind, get, getThe, get_eq, hslot]
    rfl
  change (do
    if (← get).pc < code.length then do
      step code
      loop code fuel
    else throw .pastEnd : Exec Empty) vm = _
  simp only [bind, EStateM.bind, get, getThe, get_eq, hpc, if_true, hstep]

theorem registers_setRegister (vm : Vm) (n : Fin 11) (value : UInt64) {j : ℕ} (hj : j < 11) :
    (vm.setRegister n value).registers[j] = if n.val = j then value else vm.registers[j] :=
  Vector.getElem_set n.isLt hj

/-! ## The load -/

/-- A wide load of a number. -/
theorem wideLoad_low {i hi : BpfInsn} {dst : Fin 11} (hhi : code[vm.pc + 1]? = some hi) (hdst : i.dst = dst)
    (hframe : i.dst ≠ 10) (hsrc : i.src = 0) :
    Returns (wideLoad code i) vm.fetched ⟨⟩
      ({ vm.fetched with pc := vm.pc + 2 }.setRegister dst (wideValue i hi)) := by
  have hlt := (List.getElem?_eq_some_iff.mp hhi).1
  have hgood : ¬ (vm.fetched.pc ≥ code.length ∨ i.dst = 10 ∨ i.src > 1) := by
    have hpc : vm.fetched.pc = vm.pc + 1 := rfl
    omega
  have hslot : Returns (nextSlot code) vm.fetched hi { vm.fetched with pc := vm.pc + 2 } := by
    refine Returns.bind Returns.get ?_
    have hfound : code[vm.fetched.pc]? = some hi := hhi
    rw [hfound]
    exact Returns.bind rfl Returns.pure
  refine Returns.bind Returns.get (Returns.ite_neg hgood (Returns.bind hslot ?_))
  rw [hdst]
  exact Returns.bind (setRegister_returns dst _) (Returns.ite_neg (not_not.mpr hsrc) Returns.pure)

theorem dst_probeAddress (k : ℕ) : (probeAddress k).dst = (1 : Fin 11) := by
  change ((0x01 : UInt8) &&& 15).toNat = 1
  decide

theorem src_probeAddress (k : ℕ) : (probeAddress k).src = 0 := by
  change ((0x01 : UInt8) >>> 4).toNat = 0
  decide

theorem toNat_probeAddress (hk : k < fwRules) :
    (wideValue (probeAddress k) ⟨0, 0, 0, 0⟩).toNat = valueAddress 3 k 0 := by
  revert k
  decide +kernel

variable {abi : Abi} {m : Maps} {e : BpfEnvironment}

/-- Slot `k` of `indexes` is open to a load, whether it belongs to an entry or not. -/
theorem loads_index (henvironment : vm.environment = environment abi m [] []) (hk : k < fwRules)
    {address : UInt64} (haddress : address.toNat = valueAddress 3 k 0) :
    ∃ n, vm.Loads address 4 n ∧ n.toUInt32 = m.indexes k := by
  have hbelow : k < 4096 := hk.trans (by decide)
  have htranslate : translate vm.environment address.toNat 4 false = some ⟨.values 3, k * 4⟩ := by
    have hempty : (0 : UInt32).toNat < 0x10000000 := by decide
    have hplace : translate vm.environment (valueAddress 3 k 0) 4 false = _ :=
      translate_valueAddress (henvironment ▸ hempty) (henvironment ▸ hempty) 3 hbelow (by decide) 4 false
    rw [haddress, hplace, henvironment, if_pos]
    · rfl
    · exact ⟨nofun, (by decide : 4 ≤ 256), hk, (by decide : 0 + 4 ≤ 4), nofun⟩
  have hbytes : vm.bytes (.values 3) = some (indexBytes m) := by
    change (vm.environment.maps 3).values = _
    rw [henvironment]
    rfl
  have hholds : vm.Holds ⟨.values 3, k * 4⟩ 4 := by
    refine ⟨_, hbytes, ?_⟩
    rw [indexBytes, Memory.length_bytes]
    dsimp only
    omega
  refine ⟨_, (loads_iff (by decide) fun p hp ↦ ?_).mpr ⟨_, htranslate, rfl⟩, ?_⟩
  · obtain rfl := Option.some.inj (htranslate.symm.trans hp)
    exact hholds
  · apply UInt32.toNat_inj.mp
    have hword : ∀ i < 4, vm.view ⟨.values 3, k * 4⟩ (0 + i) =
        UInt8.ofNat ((m.indexes k).toNat / 256 ^ i) := by
      intro i hi
      have hslot : (k * 4 + i) / 4 = k := by omega
      have hplace : (k * 4 + i) % 4 = i := by omega
      unfold Vm.view
      rw [hbytes, Option.getD_some, Nat.zero_add, List.getD_eq_getElem?_getD, indexBytes,
        getElem?_bytes _ (by dsimp only; omega), Option.getD_some, array]
      dsimp only
      rw [hslot, hplace, word, Memory.writeWord, if_pos (by omega), Nat.sub_zero]
    rw [toNat_firstWord, Memory.readWord_of_bytes hword]
    exact Nat.mod_eq_of_lt (m.indexes k).toNat_lt

theorem probe_load (he : e = environment abi m [] []) (hk : k < fwRules) (value : UInt32) :
    ∃ vm, Leads (probe k value) 2 (start e) vm ∧ vm.pc = 3 ∧ vm.registers[2].toUInt32 = m.indexes k ∧
      vm.environment = e := by
  obtain ⟨address, haddress⟩ : ∃ address, address = wideValue (probeAddress k) ⟨0, 0, 0, 0⟩ := ⟨_, rfl⟩
  obtain ⟨vm, hvm⟩ : ∃ vm, vm = { (start e).fetched with pc := 2 }.setRegister 1 address := ⟨_, rfl⟩
  have hfirst : Leads (probe k value) 1 (start e) vm := by
    rw [hvm, haddress]
    refine leads_execute rfl (Returns.ite_neg ?_ (Returns.ite_pos rfl
      (wideLoad_low rfl (dst_probeAddress k) ?_ (src_probeAddress k))))
    · rw [dst_probeAddress, src_probeAddress]
      decide
    · rw [dst_probeAddress]
      decide
  have henvironment : vm.fetched.environment = environment abi m [] [] := by
    rw [hvm]
    exact he
  obtain ⟨n, hloads, hn⟩ := loads_index henvironment hk (haddress ▸ toNat_probeAddress hk)
  have hsecond : Leads (probe k value) 1 vm (vm.fetched.setRegister 2 n) := by
    refine leads_execute (i := ⟨0x61, 0x12, 0, 0⟩) (by rw [hvm]; rfl) (Returns.ite_neg (by decide)
      (Returns.ite_neg (by decide) (Returns.ite_neg (by decide) (Returns.ite_pos (by decide) ?_))))
    have hbase : vm.fetched.registers[(1 : Fin 11)] + (0 : Int16).toInt64.toUInt64 = address := by
      rw [hvm]
      exact UInt64.add_zero address
    rw [← hbase] at hloads
    exact access_load (by decide) (by decide) (by decide) (by decide) (by decide) hloads
  refine ⟨_, hfirst.trans hsecond, ?_, ?_, ?_⟩
  · rw [hvm]
    rfl
  · rw [registers_setRegister _ _ _ (by decide), if_pos (by decide)]
    exact hn
  · rw [hvm]
    rfl

/-! ## The comparison -/

theorem operand_probeCompare (value : UInt32) :
    Returns (Bpf.operand (probeCompare value)) vm (probeCompare value).signExtended vm := by
  refine Returns.ite_neg ?_ Returns.pure
  change ¬ ((0x56 &&& 8 : UInt8) != 0) = true
  decide

theorem toUInt32_signExtended (value : UInt32) : (probeCompare value).signExtended.toUInt32 = value := by
  apply UInt32.toBitVec_inj.mp
  rw [UInt64.toBitVec_toUInt32]
  change (value.toBitVec.signExtend 64).setWidth 32 = value.toBitVec
  rw [← BitVec.signExtend_eq_setWidth_of_le _ (by decide)]
  exact congrArg Int32.toBitVec (Int32.toInt32_toInt64 value.toInt32)

theorem taken_probeCompare (n : UInt64) (value : UInt32) (sa sb : ℤ) :
    taken (probeCompare value).op n.toUInt32.toUInt64 (probeCompare value).signExtended.toUInt32.toUInt64 sa sb =
      some (n.toUInt32 != value) := by
  have hop : (probeCompare value).op = 0x50 := by
    change (0x56 &&& 0xf0 : UInt8) = 0x50
    decide
  rw [toUInt32_signExtended, hop]
  change some (n.toUInt32.toUInt64 != value.toUInt64) = _
  refine congrArg some (Bool.eq_iff_iff.mpr ?_)
  rw [bne_iff_ne, bne_iff_ne, ne_eq, ne_eq, UInt32.toUInt64_inj]

theorem branch_probeCompare (value : UInt32) (hnext : code[vm.pc + 1]? = some ⟨0x95, 0, 0, 0⟩) :
    Returns (branch code (probeCompare value)) vm ⟨⟩
      (if vm.registers[2].toUInt32 = value then vm else { vm with pc := vm.pc + 1 }) := by
  have hget : Returns (getRegister (probeCompare value).dst) vm vm.registers[2] vm := by
    have hdst : (probeCompare value).dst = (2 : Fin 11) := by
      change (0x02 &&& 15 : UInt8).toNat = 2
      decide
    rw [hdst]
    exact getRegister_returns 2
  have hnarrow : ((probeCompare value).cls == 6) = true := by
    change ((0x56 &&& 7 : UInt8) == 6) = true
    decide
  refine Returns.ite_neg ?_ (Returns.ite_neg ?_
    (Returns.bind hget (Returns.bind (operand_probeCompare value) ?_)))
  · change ¬ (0x56 : UInt8) = 0x95
    decide
  · change ¬ (0x56 : UInt8) = 0x85
    decide
  simp only [hnarrow, if_true, taken_probeCompare]
  by_cases heq : vm.registers[2].toUInt32 = value
  · rw [if_pos heq, bne_eq_false_iff_eq.mpr heq]
    exact Returns.pure
  · rw [if_neg heq, bne_iff_ne.mpr heq]
    have hlt := (List.getElem?_eq_some_iff.mp hnext).1
    have hoffset : (vm.pc : ℤ) + (probeCompare value).offset.toInt = (vm.pc + 1 : ℕ) := rfl
    refine Returns.bind Returns.get ?_
    dsimp only
    rw [hoffset, Int.toNat_natCast, hnext]
    exact Returns.ite_neg (by omega) (Returns.ite_neg (by decide) Returns.modify)

theorem execute_probeCompare (h : Returns (branch code (probeCompare value)) vm ⟨⟩ t) :
    Returns (execute code (probeCompare value)) vm ⟨⟩ t := by
  refine Returns.ite_neg ?_ (Returns.ite_neg ?_ (Returns.ite_neg ?_ (Returns.ite_neg ?_
    (Returns.ite_pos ?_ h))))
  · change ¬ ((0x02 &&& 15 : UInt8).toNat > 10 ∨ ((0x02 : UInt8) >>> 4).toNat > 10)
    decide
  · change ¬ (0x56 : UInt8) = 0x18
    decide
  · change ¬ ((0x56 &&& 7 : UInt8) = 4 ∨ (0x56 &&& 7 : UInt8) = 7)
    decide
  · change ¬ ((0x56 &&& 7 : UInt8) = 1 ∨ (0x56 &&& 7 : UInt8) = 2 ∨ (0x56 &&& 7 : UInt8) = 3)
    decide
  · change (0x56 &&& 7 : UInt8) = 5 ∨ (0x56 &&& 7 : UInt8) = 6
    decide

theorem probe_compare (k : ℕ) (value : UInt32) (hpc : vm.pc = 3) :
    ∃ t, Leads (probe k value) 2 vm t ∧ t.pc = (if vm.registers[2].toUInt32 = value then 5 else 6) ∧
      t.registers[0] = 1 ∧ t.environment = vm.environment := by
  obtain ⟨v, hv⟩ : ∃ v, v = vm.fetched.setRegister 0 1 := ⟨_, rfl⟩
  have hmov : Leads (probe k value) 1 vm v := by
    rw [hv]
    exact leads_execute (i := ⟨0xb7, 0, 0, 1⟩) (by rw [hpc]; rfl) rfl
  have hvpc : v.fetched.pc = 5 := by
    rw [hv]
    exact congrArg (· + 1 + 1) hpc
  have hloaded : v.fetched.registers[2] = vm.registers[2] := by
    rw [hv]
    exact registers_setRegister vm.fetched 0 1 (by decide)
  have hbranch : Returns (branch (probe k value) (probeCompare value)) v.fetched ⟨⟩ _ :=
    branch_probeCompare value (by rw [hvpc]; rfl)
  rw [hloaded, hvpc] at hbranch
  have hslot : (probe k value)[v.pc]? = some (probeCompare value) := by
    rw [hv]
    change (probe k value)[vm.pc + 1]? = _
    rw [hpc]
    rfl
  refine ⟨_, hmov.trans (leads_execute hslot (execute_probeCompare hbranch)), ?_, ?_, ?_⟩
  · split
    · exact hvpc
    · rfl
  · split <;> rw [hv] <;> exact registers_setRegister vm.fetched 0 1 (by decide)
  · split <;> rw [hv] <;> rfl

/-! ## The verdict -/

theorem probe_accept (k : ℕ) (value : UInt32) (hpc : vm.pc = 5) : ∃ t, Leads (probe k value) 1 vm t ∧ t.pc = 6 ∧
    t.registers[0] = 2 ∧ t.environment = vm.environment := by
  refine ⟨vm.fetched.setRegister 0 2, ?_, congrArg (· + 1) hpc, ?_, rfl⟩
  · exact leads_execute (i := ⟨0xb7, 0, 0, 2⟩) (by rw [hpc]; rfl) rfl
  · exact registers_setRegister vm.fetched 0 2 (by decide)

/-- A program that comes to its exit ends there, and shows r0. -/
theorem bpfExecute_exit (hlength : code.length ≤ bpfMaxInsns) {rounds : ℕ} (hfuel : rounds < bpfFuel)
    (hleads : Leads code rounds (start e) vm) (hslot : code[vm.pc]? = some ⟨0x95, 0, 0, 0⟩) :
    bpfExecute code e = (.exit vm.registers[0], vm.fetched) := by
  have hpc := (List.getElem?_eq_some_iff.mp hslot).1
  have hgood : ¬ (code.length = 0 ∨ code.length > bpfMaxInsns) := by omega
  obtain ⟨fuel, hrest⟩ := Nat.exists_eq_add_of_lt hfuel
  have hrun : loop code bpfFuel (start e) = .error (.exit vm.registers[0]) vm.fetched := by
    rw [hrest, Nat.add_assoc, Nat.add_comm, hleads, loop_exit hslot]
  rw [bpfExecute, if_neg hgood, hrun]

/-- The run of a probe. -/
theorem bpfExecute_probe (he : e = environment abi m [] []) (hk : k < fwRules) (value : UInt32) :
    ∃ vm, bpfExecute (probe k value) e = (.exit (if m.indexes k = value then 2 else 1), vm) ∧
      vm.environment = e := by
  have hlength : (probe k value).length ≤ bpfMaxInsns := (by decide : 7 ≤ 4096)
  obtain ⟨v, hload, hpc, hn, henvironment⟩ := probe_load he hk value
  obtain ⟨w, hcompare, hwpc, hdeny, hsame⟩ := probe_compare k value hpc
  rw [hn] at hwpc
  by_cases hheld : m.indexes k = value
  · rw [if_pos hheld] at hwpc ⊢
    obtain ⟨t, haccept, htpc, htwo, htsame⟩ := probe_accept k value hwpc
    have hrun := bpfExecute_exit hlength (by decide) ((hload.trans hcompare).trans haccept)
      (by rw [htpc]; rfl)
    rw [htwo] at hrun
    exact ⟨_, hrun, htsame.trans (hsame.trans henvironment)⟩
  · rw [if_neg hheld] at hwpc ⊢
    have hrun := bpfExecute_exit hlength (by decide) (hload.trans hcompare) (by rw [hwpc]; rfl)
    rw [hdeny] at hrun
    exact ⟨_, hrun, hsame.trans henvironment⟩

end JordyOS.Policy
