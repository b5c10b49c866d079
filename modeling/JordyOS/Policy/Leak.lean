import JordyOS.Policy.Probe

/-!
# What an evaluation leaves behind

`prepare` clears every static variable but `prefixes` and `indexes`.  The first of these a program sees
only as far as it was written anew; the second is an array of values, and all of it is open to loads.
-/

namespace JordyOS.Policy

open Machine Net Bpf

variable {fw : Firewall} {m n : Maps} {abi : Abi}

/-! ## What a program can see of the maps -/

/-- Static variables that differ behind the entries of the early map, and there in `prefixes` only. -/
structure Maps.Alike (m n : Maps) : Prop where
  header : n.header = m.header
  policy : n.policy = m.policy
  used : n.blocks.used = m.blocks.used
  used_le : m.blocks.used ≤ fwRules
  slots : ∀ k < m.blocks.used, n.blocks.slots k = m.blocks.slots k
  indexes : ∀ k < fwRules, n.indexes k = m.indexes k
  enabled : n.enabled = m.enabled
  metadata : n.metadata = m.metadata

/-- Behind the block entries `prepare` leaves the early map alone. -/
theorem prepare_blocks_behind (hcount : fw.count ≤ fwRules) (m : Maps) {k : ℕ}
    (hk : fw.blockPlaces.length ≤ k) : (prepare fw m).blocks.slots k = m.blocks.slots k := by
  have hused := prepare_blocks_used hcount m
  rw [prepare_blocks hcount, Fill.collect_used, List.filter_false, List.length_nil, Nat.add_zero] at hused
  have hfirst : (Fill.collect (fun i ↦ (fw.rules i).block) (earlyEntry fw) ⟨m.blocks.slots, 0⟩
      (List.range fw.count)).used ≤ k := hused.trans_le hk
  rw [prepare_blocks hcount, Fill.collect_slots_of_ge _ _ _ _ ?_, Fill.collect_slots_of_ge _ _ _ _ hfirst]
  rw [Fill.collect_used, List.filter_false]
  exact hfirst

theorem blockPlaces_le (hcount : fw.count ≤ fwRules) : fw.blockPlaces.length ≤ fwRules :=
  calc fw.blockPlaces.length ≤ (List.range fw.count).length := List.length_filter_le _ _
    _ = fw.count := List.length_range
    _ ≤ fwRules := hcount

theorem prepare_alike (hcount : fw.count ≤ fwRules)
    (h : ∀ k, fw.blockPlaces.length ≤ k → k < fwRules → n.indexes k = m.indexes k) :
    (prepare fw m).Alike (prepare fw n) where
  header := by
    have hused := prepare_blocks_used hcount n
    rw [← prepare_blocks_used hcount m] at hused
    exact congrArg (fun blocks ↦ { (prepare fw m).header with blocks := blocks }) hused
  policy := by rw [prepare_policy hcount, prepare_policy hcount]
  used := by rw [prepare_blocks_used hcount, prepare_blocks_used hcount]
  used_le := by
    rw [prepare_blocks_used hcount]
    exact blockPlaces_le hcount
  slots k hk := by
    rw [prepare_blocks_used hcount] at hk
    rw [prepare_blocks_slots hcount m hk, prepare_blocks_slots hcount n hk]
  indexes k hk := by
    unfold Maps.indexes
    by_cases hnew : k < fw.blockPlaces.length
    · rw [prepare_blocks_slots hcount m hnew, prepare_blocks_slots hcount n hnew]
    · have hbehind := Nat.le_of_not_lt hnew
      rw [prepare_blocks_behind hcount m hbehind, prepare_blocks_behind hcount n hbehind]
      exact h k hbehind hk
  enabled := rfl
  metadata := rfl

/-- The entries of each map. -/
def entriesOf (m : Maps) (id : Fin bpfMaps) : ℕ := if id = 3 then m.blocks.used else 0

/-- A map without entries is like any map with the same variables. -/
theorem alike_of_eq {map other : BpfMap} (h : other = map) (hentries : map.entries = 0) :
    map.Alike 0 other := by
  subst h
  exact ⟨rfl, rfl, rfl, rfl, rfl, congrArg UInt32.toNat hentries, rfl, rfl, Iff.rfl,
    fun i hi ↦ absurd hi (by omega)⟩

theorem indexBytes_congr (h : m.Alike n) : indexBytes n = indexBytes m := by
  refine Memory.bytes_eq_bytes_iff.mpr ⟨rfl, fun i hi ↦ ?_⟩
  exact array_congr (by decide) (fun k hk ↦ by rw [h.indexes k hk]) hi

/-- The keys of the entries are the same. -/
theorem prefixBytes_congr (h : m.Alike n) {i : ℕ} (hi : i < m.blocks.used * 20) :
    (prefixBytes abi n)[i]? = (prefixBytes abi m)[i]? := by
  have hin : i < fwRules * 20 := hi.trans_le (Nat.mul_le_mul_right 20 h.used_le)
  unfold prefixBytes
  rw [getElem?_bytes _ hin, getElem?_bytes _ hin]
  exact congrArg some (array_congr (by decide) (fun k hk ↦ by rw [h.slots k hk]) hi)

theorem policyBytes_congr (h : m.Alike n) : policyBytes abi n = policyBytes abi m := by
  unfold policyBytes
  rw [h.header, h.policy]

theorem mapTable_alike (h : m.Alike n) (id : Fin bpfMaps) :
    (mapTable abi m id).Alike (entriesOf m id) (mapTable abi n id) := by
  match id with
  | 0 =>
    refine alike_of_eq ?_ rfl
    unfold mapTable
    dsimp only
    rw [policyBytes_congr h]
  | 1 => exact alike_of_eq rfl rfl
  | 2 => exact alike_of_eq rfl rfl
  | 3 =>
    refine ⟨rfl, rfl, rfl, rfl, congrArg UInt32.ofNat h.used, ?_, congrArg some (indexBytes_congr h), rfl,
      iff_of_false nofun nofun, fun i hi ↦ prefixBytes_congr h hi⟩
    exact UInt32.toNat_ofNat_of_lt' (h.used_le.trans_lt (by decide))
  | 4 =>
    exact ⟨rfl, rfl, rfl, rfl, rfl, rfl, congrArg some (indexBytes_congr h), rfl,
      iff_of_false nofun nofun, fun i hi ↦ absurd hi (Nat.not_lt_zero _)⟩
  | 5 =>
    refine alike_of_eq ?_ rfl
    unfold mapTable
    dsimp only
    rw [h.enabled]
  | 6 =>
    refine alike_of_eq ?_ rfl
    unfold mapTable
    dsimp only
    rw [h.metadata]

/-- A program cannot tell the two apart. -/
theorem executeIn_same (abi : Abi) (h : m.Alike n) (code : List BpfInsn) (context packet : List UInt8) :
    executeIn abi code n context packet = executeIn abi code m context packet := by
  have hstart : (start (environment abi m context packet)).Alike (entriesOf m)
      (start (environment abi n context packet)) := start_alike rfl rfl rfl rfl (mapTable_alike h)
  obtain ⟨hreason, hstate⟩ := bpfExecute_same hstart code
  refine Prod.ext (result_congr hreason hstate.steps) (funext fun i ↦ ?_)
  have hvalues := (hstate.maps 2).values
  unfold executeIn readCounters
  dsimp only
  rw [hvalues]

/-! ## The parts of an evaluation -/

variable {u : Upstream} {programs : Programs} {s t : System}

/-- Whether the evaluation gets as far as `prepare`. -/
def Input.admitted (fw : Firewall) : Input → Bool
  | .policy _ _ => decide (fw.count ≤ fwRules)
  | .xdp _ size => decide (size ≤ netFrameMax) && decide (fw.count ≤ fwRules)

/-- What `finish` is given. -/
def Input.ran (abi : Abi) (programs : Programs) (s : System) : Input → System × BpfResult
  | .policy p direction =>
    let maps := { prepare s.fw s.maps with metadata := describe p direction }
    let run := executeIn abi programs.policy maps [] []
    ({ s with
      maps := { maps with counters := run.2 }
      stats := { s.stats with policyRuns := s.stats.policyRuns + 1 } }, run.1)
  | .xdp frame size =>
    let run := embeddedXdp abi programs (prepare s.fw s.maps) frame size
    ({ s with
      maps := { prepare s.fw s.maps with counters := run.2 }
      stats := { s.stats with xdpRuns := s.stats.xdpRuns + 1 } }, run.1)

/-- What `fw_bpf_xdp` does with the verdict. -/
def Input.close : Input → Bool × System → Bool × System
  | .policy _ _, x => x
  | .xdp _ _, x =>
    if x.1 then (true, x.2)
    else (false, { x.2 with
      stats := { x.2.stats with xdpDrops := x.2.stats.xdpDrops + 1 }
      fw := { x.2.fw with denied := Function.update x.2.fw.denied 0 (x.2.fw.denied 0 + 1) } })

theorem Input.count_le {input : Input} (h : input.admitted fw = true) : fw.count ≤ fwRules := by
  cases input with
  | policy p direction => exact of_decide_eq_true h
  | xdp frame size => exact of_decide_eq_true (Bool.and_eq_true_iff.mp h).2

theorem not_unready (u : Upstream) (abi : Abi) (programs : Programs) :
    ¬ (embedded u abi programs).ready = false := by
  have hready : (embedded u abi programs).ready = true :=
    Bool.and_eq_true_iff.mpr ⟨programs.policy_valid, programs.xdp_valid⟩
  rw [hready]
  decide

theorem evaluate_of_admitted (u : Upstream) (abi : Abi) (programs : Programs) {input : Input}
    (h : input.admitted s.fw = true) : evaluate u abi programs s input =
      input.close (finish (input.ran abi programs s).1 (input.ran abi programs s).2) := by
  have hcount := Nat.not_lt.mpr (Input.count_le h)
  have hready := not_unready u abi programs
  cases input with
  | policy p direction => exact if_neg (not_or.mpr ⟨hready, hcount⟩)
  | xdp frame size =>
    have hsize : size ≤ netFrameMax := of_decide_eq_true (Bool.and_eq_true_iff.mp h).1
    exact if_neg (not_or.mpr ⟨hready, not_or.mpr ⟨Nat.not_lt.mpr hsize, hcount⟩⟩)

theorem evaluate_of_not_admitted (u : Upstream) (abi : Abi) (programs : Programs) {input : Input}
    (h : input.admitted s.fw = false) : evaluate u abi programs s input = (false, s.fault) := by
  cases input with
  | policy p direction => exact if_pos (Or.inr (Nat.lt_of_not_le (of_decide_eq_false h)))
  | xdp frame size =>
    rcases Bool.and_eq_false_iff.mp h with hsize | hcount
    · exact if_pos (Or.inr (Or.inl (Nat.lt_of_not_le (of_decide_eq_false hsize))))
    · exact if_pos (Or.inr (Or.inr (Nat.lt_of_not_le (of_decide_eq_false hcount))))

theorem ran_variables (abi : Abi) (programs : Programs) (s : System) (input : Input) :
    (input.ran abi programs s).1.fw = s.fw ∧
    (input.ran abi programs s).1.maps.blocks = (prepare s.fw s.maps).blocks ∧
    (input.ran abi programs s).1.stats.steps = s.stats.steps := by
  cases input with
  | policy p direction => exact ⟨rfl, rfl, rfl⟩
  | xdp frame size => exact ⟨rfl, rfl, rfl⟩

/-! ## Evaluations that look the same -/

/-- The slots of `indexes` behind the block entries hold the same. -/
def SameLeftover (fw : Firewall) (m n : Maps) : Prop :=
  ∀ k, fw.blockPlaces.length ≤ k → k < fwRules → n.indexes k = m.indexes k

theorem ran_same (hfw : t.fw = s.fw) (hcount : s.fw.count ≤ fwRules) (h : SameLeftover s.fw s.maps t.maps)
    (input : Input) : (input.ran abi programs t).2 = (input.ran abi programs s).2 ∧
      (input.ran abi programs t).1.maps.counters = (input.ran abi programs s).1.maps.counters := by
  have halike := prepare_alike hcount h
  cases input with
  | policy p direction =>
    have hdescribed : Maps.Alike { prepare s.fw s.maps with metadata := describe p direction }
        { prepare s.fw t.maps with metadata := describe p direction } := { halike with metadata := rfl }
    have hrun := executeIn_same abi hdescribed programs.policy [] []
    unfold Input.ran
    dsimp only
    rw [hfw, hrun]
    exact ⟨rfl, rfl⟩
  | xdp frame size =>
    have hrun := executeIn_same abi halike programs.xdp (xdpContext size) (frame.bytes size)
    unfold Input.ran embeddedXdp
    dsimp only
    rw [hfw, hrun]
    exact ⟨rfl, rfl⟩

/-- Two evaluations with the same verdict, the same table behind them and as many steps. -/
structure Agrees (s t : System) (x y : Bool × System) : Prop where
  verdict : y.1 = x.1
  fw : y.2.fw = x.2.fw
  steps : ∃ n, x.2.stats.steps = s.stats.steps + n ∧ y.2.stats.steps = t.stats.steps + n

theorem agrees_fault (hfw : t.fw = s.fw) : Agrees s t (false, s.fault) (false, t.fault) :=
  ⟨rfl, hfw, 0, (UInt32.add_zero _).symm, (UInt32.add_zero _).symm⟩

theorem agrees_finish {v w : System} (hs : v.stats.steps = s.stats.steps) (ht : w.stats.steps = t.stats.steps)
    (hfw : w.fw = v.fw) (hcounters : w.maps.counters = v.maps.counters) (r : BpfResult) :
    Agrees s t (finish v r) (finish w r) := by
  unfold finish System.fault
  dsimp only
  rw [hfw, hcounters, hs, ht]
  split <;> exact ⟨rfl, rfl, UInt32.ofNat r.steps, rfl, rfl⟩

theorem Agrees.close {x y : Bool × System} (h : Agrees s t x y) (input : Input) :
    Agrees s t (input.close x) (input.close y) := by
  cases input with
  | policy p direction => exact h
  | xdp frame size =>
    obtain ⟨hverdict, hfw, hsteps⟩ := h
    unfold Input.close
    dsimp only
    rw [hverdict, hfw]
    split
    · exact ⟨rfl, hfw, hsteps⟩
    · exact ⟨rfl, rfl, hsteps⟩

theorem evaluate_agrees (u : Upstream) (abi : Abi) (programs : Programs) (hfw : t.fw = s.fw)
    (h : SameLeftover s.fw s.maps t.maps) (input : Input) :
    Agrees s t (evaluate u abi programs s input) (evaluate u abi programs t input) := by
  cases hadmitted : input.admitted s.fw with
  | true =>
    obtain ⟨hresult, hcounters⟩ := ran_same hfw (Input.count_le hadmitted) h input
    obtain ⟨hsfw, -, hssteps⟩ := ran_variables abi programs s input
    obtain ⟨htfw, -, htsteps⟩ := ran_variables abi programs t input
    rw [evaluate_of_admitted u abi programs hadmitted,
      evaluate_of_admitted u abi programs (hfw.symm ▸ hadmitted), hresult]
    refine (agrees_finish hssteps htsteps ?_ hcounters _).close input
    rw [hsfw, htfw, hfw]
  | false =>
    rw [evaluate_of_not_admitted u abi programs hadmitted,
      evaluate_of_not_admitted u abi programs (hfw.symm ▸ hadmitted)]
    exact agrees_fault hfw

theorem observe_same (hfw : t.fw = s.fw) (h : SameLeftover s.fw s.maps t.maps) (input : Input) :
    observe u abi programs t input = observe u abi programs s input := by
  obtain ⟨hverdict, htable, n, hs, ht⟩ := evaluate_agrees u abi programs hfw h input
  unfold observe
  dsimp only
  rw [hverdict, htable, hfw, hs, ht, UInt32.add_comm t.stats.steps,
    UInt32.add_comm s.stats.steps, UInt32.add_sub_cancel, UInt32.add_sub_cancel]

/-! ## What a history leaves, whatever the programs do -/

theorem close_leaves (input : Input) (x : Bool × System) :
    (input.close x).2.fw.uncounted = x.2.fw.uncounted ∧ (input.close x).2.maps = x.2.maps := by
  cases input with
  | policy p direction => exact ⟨rfl, rfl⟩
  | xdp frame size =>
    unfold Input.close
    dsimp only
    split <;> exact ⟨rfl, rfl⟩

theorem evaluate_leaves (u : Upstream) (abi : Abi) (programs : Programs) (s : System) (input : Input) :
    (evaluate u abi programs s input).2.fw.uncounted = s.fw.uncounted ∧
    (evaluate u abi programs s input).2.maps.blocks =
      if input.admitted s.fw then (prepare s.fw s.maps).blocks else s.maps.blocks := by
  cases hadmitted : input.admitted s.fw with
  | true =>
    obtain ⟨hfw, hblocks, -⟩ := ran_variables abi programs s input
    obtain ⟨hclosed, hclosedMaps⟩ := close_leaves input
      (finish (input.ran abi programs s).1 (input.ran abi programs s).2)
    obtain ⟨hfinished, hfinishedMaps⟩ := finish_leaves (input.ran abi programs s).1
      (input.ran abi programs s).2
    rw [evaluate_of_admitted u abi programs hadmitted, hclosed, hfinished, hclosedMaps, hfinishedMaps, hfw,
      hblocks]
    exact ⟨rfl, rfl⟩
  | false =>
    rw [evaluate_of_not_admitted u abi programs hadmitted]
    exact ⟨rfl, rfl⟩

/-- Two systems whose firewalls differ in counters only, with the same early map. -/
def Similar (s t : System) : Prop := t.fw.uncounted = s.fw.uncounted ∧ t.maps.blocks = s.maps.blocks

/-- What `prepare` writes does not depend on counters. -/
theorem prepare_blocks_similar (h : Similar s t) :
    (prepare t.fw t.maps).blocks = (prepare s.fw s.maps).blocks := by
  have hblocks : ∀ v : System, (prepare v.fw v.maps).blocks =
      (serialiseTable v.fw.uncounted ⟨⟨fun _ ↦ {}, 1⟩, ⟨v.maps.blocks.slots, 0⟩⟩).blocks := fun _ ↦ rfl
  rw [hblocks, hblocks, h.1, h.2]

theorem admitted_similar (h : Similar s t) (input : Input) : input.admitted t.fw = input.admitted s.fw := by
  have hadmitted : ∀ v : System, input.admitted v.fw = input.admitted v.fw.uncounted := fun _ ↦ by
    cases input <;> rfl
  rw [hadmitted, hadmitted, h.1]

theorem fwAdd_uncounted (fw : Firewall) (rule : FirewallRule) :
    (fwAdd fw.uncounted rule).2 = (fwAdd fw rule).2.uncounted := by
  have hcount : fw.uncounted.count = fw.count := rfl
  unfold fwAdd
  rw [hcount]
  split
  · rfl
  · unfold Firewall.uncounted
    dsimp only
    congr 1
    funext i
    by_cases hi : i = fw.count
    · rw [hi, Function.update_self, Function.update_self]
    · rw [Function.update_of_ne hi, Function.update_of_ne hi]

theorem fwDelete_uncounted (fw : Firewall) (number : ℕ) :
    (fwDelete fw.uncounted number).2 = (fwDelete fw number).2.uncounted := by
  have hcount : fw.uncounted.count = fw.count := rfl
  unfold fwDelete
  rw [hcount]
  split
  · rfl
  · rename_i hchecks
    have hpos := Nat.pos_of_ne_zero (not_or.mp hchecks).1
    unfold Firewall.uncounted
    dsimp only
    congr 1
    funext i
    rw [foldl_moveDown _ hpos, foldl_moveDown _ hpos]
    split <;> rfl

/-- An edit does not look at the counters, and starts new ones at zero. -/
theorem edit_uncounted (o : Operation) (fw : Firewall) : o.edit fw.uncounted = (o.edit fw).uncounted := by
  cases o with
  | reset => rfl
  | add rule => exact fwAdd_uncounted fw rule
  | delete number => exact fwDelete_uncounted fw number
  | setEnabled enabled => rfl
  | setDefault direction allow => rfl
  | evaluate input => rfl

theorem apply_similar (u : Upstream) (abi : Abi) (programs other : Programs) (h : Similar s t) (o : Operation) :
    Similar (o.apply u abi programs s) (o.apply u abi other t) := by
  have hedit : Similar { s with fw := o.edit s.fw } { t with fw := o.edit t.fw } := by
    refine ⟨?_, h.2⟩
    calc (o.edit t.fw).uncounted = o.edit t.fw.uncounted := (edit_uncounted o t.fw).symm
      _ = o.edit s.fw.uncounted := by rw [h.1]
      _ = (o.edit s.fw).uncounted := edit_uncounted o s.fw
  cases o with
  | evaluate input =>
    obtain ⟨hsfw, hsblocks⟩ := evaluate_leaves u abi programs s input
    obtain ⟨htfw, htblocks⟩ := evaluate_leaves u abi other t input
    refine ⟨htfw.trans (h.1.trans hsfw.symm), htblocks.trans (Eq.trans ?_ hsblocks.symm)⟩
    rw [admitted_similar h, prepare_blocks_similar h, h.2]
  | reset | add | delete | setEnabled | setDefault => exact hedit

/-- Histories of different programs leave the same table, counters aside, and the same early map. -/
theorem history_similar (u : Upstream) (abi : Abi) (programs other : Programs) (operations : List Operation) :
    Similar (history u abi programs operations) (history u abi other operations) := by
  have hrun : ∀ s t, Similar s t → Similar (run (Operation.apply u abi programs) s operations)
      (run (Operation.apply u abi other) t operations) := by
    induction operations with
    | nil => exact fun _ _ h ↦ h
    | cons o operations ih => exact fun s t h ↦ ih _ _ (apply_similar u abi programs other h o)
  exact hrun _ _ ⟨rfl, rfl⟩

theorem history_count (u : Upstream) (abi : Abi) (programs : Programs) (operations : List Operation) :
    (history u abi programs operations).fw.count ≤ fwRules := by
  refine run_invariant _ (fun v : System ↦ v.fw.count ≤ fwRules) operations (Nat.zero_le _) fun v o hv ↦ ?_
  have hall : v.fw.All fun _ ↦ True := ⟨hv, fun _ _ ↦ trivial⟩
  cases o with
  | evaluate input =>
    have hcount := congrArg Firewall.count (evaluate_leaves u abi programs v input).1
    exact hcount.le.trans hv
  | reset => exact Nat.zero_le _
  | add rule => exact (hall.fwAdd fun _ ↦ trivial).1
  | delete number => exact (hall.fwDelete number).1
  | setEnabled enabled => exact hv
  | setDefault direction allow => exact hv

/-! ## Probes -/

/-- `return 2`. -/
def passProgram : List BpfInsn := [⟨0xb7, 0, 0, 2⟩, ⟨0x95, 0, 0, 0⟩]

/-- The pair that looks at slot `k` when a packet is evaluated, and passes every frame. -/
def probing (k : ℕ) (value : UInt32) : Programs where
  policy := probe k value
  xdp := passProgram
  policy_valid := bpfValidate_probe k value
  xdp_valid := by decide

theorem bpfExecute_pass (e : BpfEnvironment) :
    ∃ vm, bpfExecute passProgram e = (.exit 2, vm) ∧ vm.environment = e := by
  have hmov : Leads passProgram 1 (start e) ((start e).fetched.setRegister 0 2) :=
    leads_execute (i := ⟨0xb7, 0, 0, 2⟩) rfl rfl
  have hrun := bpfExecute_exit (by decide) (by decide) hmov rfl
  rw [registers_setRegister _ _ _ (by decide), if_pos (by decide)] at hrun
  exact ⟨_, hrun, rfl⟩

theorem readCounters_environment (abi : Abi) (m : Maps) (context packet : List UInt8) :
    readCounters abi (environment abi m context packet) = fun _ ↦ 0 := by
  funext i
  have hzero : ∀ size, Memory.ofList (Memory.zero.bytes size) = Memory.zero := by
    intro size
    funext j
    by_cases hj : j < size
    · exact Memory.ofList_bytes _ hj
    · unfold Memory.ofList
      rw [List.getD_eq_default _ _ (by rw [Memory.length_bytes]; omega)]
      rfl
  change abi.packets ((Memory.ofList (Memory.zero.bytes _)).shift _) = 0
  rw [hzero]
  exact abi.packets_zero

theorem addHits_zero (fw : Firewall) : addHits fw (fun _ ↦ 0) = fw := by
  have hround : ∀ l : List ℕ, l.foldl (fun rules i ↦ Function.update rules i
      { rules i with hits := (rules i).hits + (0 : UInt64).toUInt32 }) fw.rules = fw.rules := by
    intro l
    induction l with
    | nil => rfl
    | cons i l ih =>
      have hsame : Function.update fw.rules i { fw.rules i with
          hits := (fw.rules i).hits + (0 : UInt64).toUInt32 } = fw.rules := by
        have hhits : (fw.rules i).hits + (0 : UInt64).toUInt32 = (fw.rules i).hits := UInt32.add_zero _
        rw [hhits]
        exact Function.update_eq_self i fw.rules
      rw [List.foldl_cons, hsame]
      exact ih
  unfold addHits
  rw [hround]

theorem finish_quiet {r : BpfResult} (hok : r.ok = true) (hvalue : r.value = 1 ∨ r.value = 2)
    (hcounters : s.maps.counters = fun _ ↦ 0) :
    (finish s r).1 = (r.value == 2) ∧ (finish s r).2.fw = s.fw := by
  have hgood : ¬ (r.ok = false ∨ (r.value ≠ 1 ∧ r.value ≠ 2)) := by
    rintro (hfault | ⟨hone, htwo⟩)
    · rw [hok] at hfault
      cases hfault
    · exact hvalue.elim hone htwo
  unfold finish
  dsimp only
  rw [if_neg hgood, hcounters]
  exact ⟨rfl, addHits_zero s.fw⟩

theorem executeIn_of_exit {code : List BpfInsn} {context packet : List UInt8} {value : UInt64}
    (h : ∃ vm, bpfExecute code (environment abi m context packet) = (.exit value, vm) ∧
      vm.environment = environment abi m context packet) :
    ∃ steps, executeIn abi code m context packet = (⟨true, value, steps⟩, fun _ ↦ 0) := by
  obtain ⟨vm, hrun, henvironment⟩ := h
  refine ⟨vm.steps, ?_⟩
  unfold executeIn
  dsimp only
  rw [hrun, henvironment, readCounters_environment]
  rfl

theorem executeIn_probe (abi : Abi) (m : Maps) {k : ℕ} (hk : k < fwRules) (value : UInt32) :
    ∃ steps, executeIn abi (probe k value) m [] [] =
      (⟨true, if m.indexes k = value then 2 else 1, steps⟩, fun _ ↦ 0) :=
  executeIn_of_exit (bpfExecute_probe rfl hk value)

theorem executeIn_pass (abi : Abi) (m : Maps) (context packet : List UInt8) :
    ∃ steps, executeIn abi passProgram m context packet = (⟨true, 2, steps⟩, fun _ ↦ 0) :=
  executeIn_of_exit (bpfExecute_pass _)

/-- The verdict of the probing pair. -/
def probed (k : ℕ) (value : UInt32) (s : System) : Input → Bool
  | .policy _ _ => decide ((prepare s.fw s.maps).indexes k = value)
  | .xdp _ _ => true

theorem ran_probing (abi : Abi) {k : ℕ} (hk : k < fwRules) (value : UInt32) (s : System) (input : Input) :
    (∃ steps, (input.ran abi (probing k value) s).2 = ⟨true, if probed k value s input then 2 else 1, steps⟩) ∧
    (input.ran abi (probing k value) s).1.maps.counters = fun _ ↦ 0 := by
  cases input with
  | policy p direction =>
    obtain ⟨steps, hrun⟩ := executeIn_probe abi
      { prepare s.fw s.maps with metadata := describe p direction } hk value
    unfold Input.ran probing
    dsimp only
    rw [hrun]
    refine ⟨⟨steps, ?_⟩, rfl⟩
    unfold probed
    simp only [decide_eq_true_eq]
    rfl
  | xdp frame size =>
    obtain ⟨steps, hrun⟩ := executeIn_pass abi (prepare s.fw s.maps) (xdpContext size) (frame.bytes size)
    unfold Input.ran embeddedXdp probing
    dsimp only
    rw [hrun]
    exact ⟨⟨steps, rfl⟩, rfl⟩

/-- A probe shows the slot and changes nothing of the firewall. -/
theorem evaluate_probing (u : Upstream) (abi : Abi) {k : ℕ} (hk : k < fwRules) (value : UInt32) {s : System}
    {input : Input} (h : input.admitted s.fw = true) :
    (evaluate u abi (probing k value) s input).1 = probed k value s input ∧
    (evaluate u abi (probing k value) s input).2.fw = s.fw := by
  obtain ⟨⟨steps, hresult⟩, hcounters⟩ := ran_probing abi hk value s input
  have hvalue : (if probed k value s input then (2 : UInt64) else 1) = 1 ∨
      (if probed k value s input then (2 : UInt64) else 1) = 2 := by
    cases probed k value s input with
    | true => exact Or.inr rfl
    | false => exact Or.inl rfl
  obtain ⟨hverdict, hfw⟩ := finish_quiet (r := ⟨true, if probed k value s input then 2 else 1, steps⟩)
    rfl hvalue hcounters
  have hshown : (finish (input.ran abi (probing k value) s).1 (input.ran abi (probing k value) s).2).1 =
      probed k value s input := by
    rw [hresult, hverdict]
    cases probed k value s input <;> rfl
  rw [(ran_variables abi (probing k value) s input).1, ← hresult] at hfw
  rw [evaluate_of_admitted u abi _ h]
  cases input with
  | policy p direction => exact ⟨hshown, hfw⟩
  | xdp frame size =>
    have htrue : (finish (Input.ran abi (probing k value) s (.xdp frame size)).1
      (Input.ran abi (probing k value) s (.xdp frame size)).2).1 = true := hshown
    unfold Input.close
    dsimp only
    rw [htrue, if_pos rfl]
    exact ⟨rfl, hfw⟩

theorem evaluate_probing_fw (u : Upstream) (abi : Abi) {k : ℕ} (hk : k < fwRules) (value : UInt32)
    (s : System) (input : Input) : (evaluate u abi (probing k value) s input).2.fw = s.fw := by
  cases hadmitted : input.admitted s.fw with
  | true => exact (evaluate_probing u abi hk value hadmitted).2
  | false =>
    rw [evaluate_of_not_admitted u abi _ hadmitted]
    rfl

/-- In a history of probes no counter moves. -/
theorem history_probing (u : Upstream) (abi : Abi) {k : ℕ} (hk : k < fwRules) (value : UInt32)
    (operations : List Operation) : (history u abi (probing k value) operations).fw.uncounted =
      (history u abi (probing k value) operations).fw := by
  refine run_invariant _ (fun v : System ↦ v.fw.uncounted = v.fw) operations rfl fun v o hv ↦ ?_
  have hedit : (o.edit v.fw).uncounted = o.edit v.fw := by rw [← edit_uncounted, hv]
  cases o with
  | evaluate input =>
    change (evaluate u abi (probing k value) v input).2.fw.uncounted =
      (evaluate u abi (probing k value) v input).2.fw
    rw [evaluate_probing_fw u abi hk, hv]
  | reset | add | delete | setEnabled | setDefault => exact hedit

/-! ## When evaluations leak -/

/-- The slots behind the block entries do not depend on the programs. -/
theorem indexes_history (u : Upstream) (abi : Abi) (programs other : Programs) (operations : List Operation)
    (k : ℕ) : (history u abi other operations).maps.indexes k =
      (history u abi programs operations).maps.indexes k := by
  unfold Maps.indexes
  rw [(history_similar u abi programs other operations).2]

/-- Where histories of a pair of programs end with the same table, so do histories of probes. -/
theorem history_probing_eq (u : Upstream) (abi : Abi) (programs : Programs) {first second : List Operation}
    (hfw : (history u abi programs second).fw = (history u abi programs first).fw) {k : ℕ} (hk : k < fwRules)
    (value : UInt32) : (history u abi (probing k value) second).fw = (history u abi (probing k value) first).fw := by
  rw [← history_probing u abi hk value second, ← history_probing u abi hk value first,
    (history_similar u abi programs (probing k value) second).1,
    (history_similar u abi programs (probing k value) first).1, hfw]

/-- After a history of probes the next one shows what the history left in its slot. -/
theorem observe_probing (u : Upstream) (abi : Abi) (programs : Programs) (operations : List Operation) {k : ℕ}
    (hbehind : (history u abi programs operations).fw.blockPlaces.length ≤ k) (hk : k < fwRules)
    (value : UInt32) (p : Packet) (direction : ℕ) :
    (observe u abi (probing k value) (history u abi (probing k value) operations) (.policy p direction)).verdict =
      decide ((history u abi programs operations).maps.indexes k = value) := by
  have hcount := history_count u abi (probing k value) operations
  have hplaces : (history u abi (probing k value) operations).fw.blockPlaces.length ≤ k :=
    (congrArg (fun fw : Firewall ↦ fw.blockPlaces.length)
      (history_similar u abi programs (probing k value) operations).1).le.trans hbehind
  have hadmitted : Input.admitted (history u abi (probing k value) operations).fw (.policy p direction) = true :=
    decide_eq_true hcount
  have hverdict := (evaluate_probing u abi hk value hadmitted).1
  have hslot : (prepare (history u abi (probing k value) operations).fw
      (history u abi (probing k value) operations).maps).indexes k =
      (history u abi programs operations).maps.indexes k := by
    rw [← indexes_history u abi programs (probing k value) operations k]
    unfold Maps.indexes
    rw [prepare_blocks_behind hcount _ hplaces]
  rw [probed, hslot] at hverdict
  exact hverdict

/-- Two histories are told apart by no pair of programs, exactly when they leave the same behind the block
entries of the tables they share. -/
theorem observe_iff (u : Upstream) (abi : Abi) (first second : List Operation) :
    (∀ programs, (history u abi programs second).fw = (history u abi programs first).fw →
      ∀ input, observe u abi programs (history u abi programs second) input =
        observe u abi programs (history u abi programs first) input) ↔
    ∀ programs, (history u abi programs second).fw = (history u abi programs first).fw →
      SameLeftover (history u abi programs first).fw (history u abi programs first).maps
        (history u abi programs second).maps := by
  constructor
  · intro hsame programs hfw k hbehind hk
    obtain ⟨value, hvalue⟩ : ∃ value, value = (history u abi programs first).maps.indexes k := ⟨_, rfl⟩
    have hprobing : ∀ value, (history u abi (probing k value) second).fw =
        (history u abi (probing k value) first).fw := history_probing_eq u abi programs hfw hk
    have hsecond : (history u abi programs second).fw.blockPlaces.length ≤ k := by
      rw [hfw]
      exact hbehind
    have hobserved := congrArg Observation.verdict (hsame (probing k value) (hprobing value)
      (.policy ⟨0, 0, 0, 0, 0, 0⟩ 0))
    rw [observe_probing u abi programs second hsecond hk, observe_probing u abi programs first hbehind hk,
      decide_eq_true hvalue.symm] at hobserved
    exact (of_decide_eq_true hobserved).trans hvalue
  · exact fun h programs hfw input ↦ observe_same hfw (h programs hfw) input

/-! ## A leak -/

/-- Fields one after the other, each of four bytes. -/
def packed (fields : List ℕ) : Memory := array 4 fun i ↦ word (fields.getD i 0)

def packedAbi : Abi where
  header h := packed [h.count, h.ready, h.schema, h.generation, h.defaults 0, h.defaults 1, h.blocks]
  rule r := ((packed [r.action, r.direction, r.family, r.proto, r.srcBits, r.dstBits, r.dportLo, r.dportHi,
    r.index]).copy 36 r.src 16).copy 52 r.dst 16
  lpmKey length address := (word length).copy 4 address 16
  metadata p := ((packed [p.direction, p.family, p.proto, p.sport, p.dport, p.len]).copy 24 p.src 16).copy 40 p.dst 16
  metadataSize := 56
  counterSize := 16
  packets counter := UInt64.ofNat (counter.readWord 0 8)
  packets_zero := rfl

def blockNetwork : FirewallRule := { source := 0x0a000000, sourceMask := 0xff000000, block := true }

def anyPacket : Packet := ⟨0, 0, 0, 0, 0, 0⟩

/-- Two block rules come and go. -/
def unused : List Operation := [.add blockNetwork, .add blockNetwork, .delete 2, .delete 1]

/-- The same, and a packet is evaluated while they stand. -/
def used : List Operation :=
  [.add blockNetwork, .add blockNetwork, .evaluate (.policy anyPacket 0), .delete 2, .delete 1]

/-- The evaluation left the index of the second rule in slot 1. -/
theorem indexes_used : (history reference packedAbi (probing 1 1) used).maps.indexes 1 = 1 := by
  have hblocks : (history reference packedAbi (probing 1 1) used).maps.blocks = _ :=
    (evaluate_leaves reference packedAbi (probing 1 1)
      (history reference packedAbi (probing 1 1) [.add blockNetwork, .add blockNetwork])
      (.policy anyPacket 0)).2
  unfold Maps.indexes
  rw [hblocks]
  decide

theorem history_used : (history reference packedAbi (probing 1 1) used).fw =
    (history reference packedAbi (probing 1 1) unused).fw := by
  have hquiet := fun s ↦ evaluate_probing_fw reference packedAbi (k := 1) (by decide) 1 s
    (.policy anyPacket 0)
  unfold history used unused
  simp only [run_cons, run_nil, Operation.apply, Operation.edit, hquiet]

/-- With the same table behind both histories, the same packet is denied after one and allowed after the
other. -/
theorem observe_leak :
    (history reference packedAbi (probing 1 1) used).fw =
      (history reference packedAbi (probing 1 1) unused).fw ∧
    (observe reference packedAbi (probing 1 1) (history reference packedAbi (probing 1 1) unused)
      (.policy anyPacket 0)).verdict = false ∧
    (observe reference packedAbi (probing 1 1) (history reference packedAbi (probing 1 1) used)
      (.policy anyPacket 0)).verdict = true := by
  have hplaces : (history reference packedAbi (probing 1 1) unused).fw.blockPlaces.length ≤ 1 := by decide
  refine ⟨history_used, ?_, ?_⟩
  · rw [observe_probing _ _ (probing 1 1) unused hplaces (by decide)]
    decide
  · rw [observe_probing _ _ (probing 1 1) used (history_used ▸ hplaces) (by decide)]
    exact decide_eq_true indexes_used

end JordyOS.Policy
