import JordyOS.Kernel.Handover
import JordyOS.Machine.Run

/-!
# Cooperation

A task that gives up the processor finds its registers and its stack as they were when it runs again, however
many tasks are created, run and exit in between, and its turn comes after at most four others.
-/

namespace JordyOS.Kernel

open Machine

variable {layout : Layout} {k k' : System} {p i : ℕ} {d ret : UInt64}

/-! ## Runs -/

/-- Every event of the run is permitted where it happens, and no task that has exited is resumed. -/
def Permits (layout : Layout) (k : System) : List Event → Prop
  | [] => True
  | e :: events => Permitted layout k k.cur.toNat e ∧ (step layout k e).halted = false ∧
      Permits layout (step layout k e) events

/-- How often another task has been entered. -/
def passes (layout : Layout) (k : System) : List Event → ℕ
  | [] => 0
  | e :: events =>
    (if (step layout k e).cur = k.cur then 0 else 1) + passes layout (step layout k e) events

/-- The task in slot `i` does not run. -/
def Away (layout : Layout) (k : System) (i : ℕ) (events : List Event) : Prop :=
  ∀ before after, events = before ++ after → (run (step layout) k before).cur ≠ i

theorem Placed.toNat_cur (h : Placed layout k p) : k.cur.toNat = p := by
  rw [h.cur]
  rfl

theorem Keeps.live (h : Keeps layout k k' i) (hi : Live layout k i) : Live layout k' i :=
  ⟨hi.1, by rw [h.sp]; exact hi.2⟩

/-- Along a run a task that does not run is kept, and each time that another task is entered its turn comes
nearer. -/
theorem run_away {events : List Event} (h : Placed layout k p) (hlive : Live layout k p)
    (hpermits : Permits layout k events) (hi : Live layout k i) (haway : Away layout k i events) :
    ∃ q, q ≠ i ∧ Placed layout (run (step layout) k events) q ∧ Live layout (run (step layout) k events) q ∧
      Keeps layout k (run (step layout) k events) i ∧
      passes layout k events + Rotation.offset maxTasks q i ≤ Rotation.offset maxTasks p i := by
  induction events generalizing k p with
  | nil =>
    refine ⟨p, fun heq ↦ haway [] [] rfl (heq ▸ h.cur), h, hlive, Keeps.refl layout k i, ?_⟩
    exact Nat.le_of_eq (Nat.zero_add _)
  | cons e events ih =>
    obtain ⟨hpermitted, hruns, hrest⟩ := hpermits
    rw [h.toNat_cur] at hpermitted
    have hip : i ≠ p := fun heq ↦ haway [] (e :: events) rfl (heq ▸ h.cur)
    obtain ⟨q, hq⟩ := step_advances h hlive hpermitted hruns
    have hkept := hq.kept i hi hip
    have haway' : Away layout (step layout k e) i events := fun before after hsplit ↦
      haway (e :: before) after (congrArg (e :: ·) hsplit)
    obtain ⟨r, hri, hr, hrlive, hrkept, hrturn⟩ := ih hq.placed hq.live hrest (hkept.live hi) haway'
    refine ⟨r, hri, hr, hrlive, hkept.trans hrkept, ?_⟩
    have hqi : q ≠ i := fun heq ↦ haway [e] events rfl (heq ▸ hq.placed.cur)
    unfold passes
    by_cases hqp : q = p
    · rw [if_pos (hq.placed.cur.trans (hqp ▸ h.cur.symm)), Nat.zero_add, ← hqp]
      exact hrturn
    · have hchanged : (step layout k e).cur ≠ k.cur := by
        rw [hq.placed.cur, h.cur]
        exact fun heq ↦ hqp (Int.ofNat.inj heq)
      obtain ⟨hqlive, hfirst, -⟩ := hq.turn hqp
      have hnearer :=
        Rotation.offset_lt_of_foremost h.lt hqlive.1 hi.1 hip (Ne.symm hqi) (taken_iff.mpr hi.2) hfirst
      rw [if_neg hchanged]
      omega

/-- A task that waits for its turn is entered after at most four others. -/
theorem passes_lt {events : List Event} (h : Placed layout k p) (hlive : Live layout k p)
    (hpermits : Permits layout k events) (hi : Live layout k i) (haway : Away layout k i events) :
    passes layout k events < maxTasks - 1 := by
  obtain ⟨q, hqi, hq, -, -, hturn⟩ := run_away h hlive hpermits hi haway
  have hip : i ≠ p := fun heq ↦ haway [] events rfl (heq ▸ h.cur)
  have hlt := Rotation.offset_lt h.lt hi.1 hip
  have hpos := Rotation.offset_pos hq.lt (i := i)
  omega

theorem permits_append {first second : List Event} :
    Permits layout k (first ++ second) ↔
      Permits layout k first ∧ Permits layout (run (step layout) k first) second := by
  induction first generalizing k with
  | nil => exact (and_iff_right trivial).symm
  | cons e first ih =>
    change (_ ∧ _ ∧ Permits layout (step layout k e) (first ++ second)) ↔ (_ ∧ _ ∧ _) ∧ _
    rw [ih, and_assoc, and_assoc, run_cons]

theorem placed_run {events : List Event} (h : Placed layout k p) (hlive : Live layout k p)
    (hpermits : Permits layout k events) :
    ∃ q, Placed layout (run (step layout) k events) q ∧ Live layout (run (step layout) k events) q := by
  induction events generalizing k p with
  | nil => exact ⟨p, h, hlive⟩
  | cons e events ih =>
    obtain ⟨hpermitted, hruns, hrest⟩ := hpermits
    rw [h.toNat_cur] at hpermitted
    obtain ⟨q, hq⟩ := step_advances h hlive hpermitted hruns
    exact ih hq.placed hq.live hrest

/-- What a task finds when it runs again after it has given up the processor. -/
theorem resumes {middle : List Event} {e : Event} (h : Placed layout k p) (hlive : Live layout k p)
    (hpermits : Permits layout k (.yield d ret :: (middle ++ [e])))
    (haway : Away layout (step layout k (.yield d ret)) p middle)
    (hback : (run (step layout) k (.yield d ret :: (middle ++ [e]))).cur = p) :
    contextOf (run (step layout) k (.yield d ret :: (middle ++ [e]))).cpu =
        ⟨ret, k.cpu.rsp, calleeSaved.map k.cpu.registers⟩ ∧
      ∀ a, k.cpu.rsp ≤ a → a < (k.stackOf p).top →
        (run (step layout) k (.yield d ret :: (middle ++ [e]))).memory a = k.memory a := by
  obtain ⟨hpermitted, -, hrest⟩ := hpermits
  rw [h.toNat_cur] at hpermitted
  obtain ⟨hmiddle, hlast⟩ := permits_append.mp hrest
  rw [run_cons, run_append] at hback ⊢
  have hparked : ∃ n, n ≠ p ∧ Placed layout (step layout k (.yield d ret)) n ∧
      Live layout (step layout k (.yield d ret)) n ∧ Parked layout k (step layout k (.yield d ret)) p ret := by
    have hleft := haway [] middle rfl
    rw [run_nil, step_yield, yield_of_live h hlive] at hleft
    rw [step_yield, yield_of_live h hlive]
    cases hnext : layout.next k.memory p with
    | none =>
      rw [hnext] at hleft
      exact absurd h.cur hleft
    | some n =>
      have hentry := toNat_spPlace layout h.lt
      have hhanded := switched_handed h hpermitted hnext (Or.inl hentry) ret
      exact ⟨n, hhanded.ne, hhanded.placed, (hhanded.others n hhanded.ne).mpr hhanded.live,
        switched_parked h hpermitted hnext hentry ret⟩
  obtain ⟨n, hne, hn, hnlive, hp⟩ := hparked
  generalize step layout k (.yield d ret) = k₁ at hn hnlive hp hmiddle hlast haway hback ⊢
  obtain ⟨q, hqp, hq, hqlive, hkept, -⟩ := run_away hn hnlive hmiddle hp.live haway
  generalize run (step layout) k₁ middle = k₂ at hq hqlive hkept hlast hback ⊢
  obtain ⟨hallowed, hruns, -⟩ := hlast
  rw [hq.toNat_cur] at hallowed
  obtain ⟨r, hr⟩ := step_advances hq hqlive hallowed hruns
  rw [run_cons, run_nil] at hback ⊢
  obtain rfl : r = p := Int.ofNat.inj (hr.placed.cur.symm.trans hback)
  obtain ⟨-, -, hcontext⟩ := hr.turn (Ne.symm hqp)
  have hframe := hn.frame r hp.live (Ne.symm hne)
  refine ⟨?_, fun a hlow hhigh ↦ ?_⟩
  · rw [hcontext, hkept.frameContext hframe.1 hframe.2, hp.context]
  · have hroom := hpermitted.room
    have hin : (k₁.stackOf r).Contains a := by
      rw [hp.stack]
      exact ⟨by omega, hhigh⟩
    have hlast := (hr.kept r (hkept.live hp.live) (Ne.symm hqp)).memory a (hkept.stack ▸ hin)
    rw [hlast, hkept.memory a hin, hp.memory a hlow hhigh]

/-! ## The start -/

/-- What `kmain` starts from: no tasks yet, and a stack of its own. -/
structure Booting (layout : Layout) (dummy : UInt64) (stack : Stack) (c : Cpu) : Prop where
  table : ∀ a, layout.InTable a → c.memory a = 0
  size : 64 ≤ stack.size
  proper : stack.Proper layout
  room : 56 ≤ c.rsp
  frame : (c.rsp ≤ layout.tasks ∨ layout.tasks + 16 * maxTasks ≤ c.rsp - 56) ∧
    (c.rsp ≤ stack.bottom ∨ stack.top ≤ c.rsp - 56)
  dummy : c.rsp ≤ dummy.toNat ∧ (dummy.toNat + 8 ≤ layout.tasks ∨ layout.tasks + 16 * maxTasks ≤ dummy.toNat) ∧
    (dummy.toNat + 8 ≤ stack.bottom ∨ stack.top ≤ dummy.toNat)

/-- The system behind `kmain`: the first task, and no other. -/
structure Started (layout : Layout) (shell : UInt64) (stack : Stack) (k : System) : Prop where
  placed : Placed layout k 0
  live : Live layout k 0
  only : ∀ i, Live layout k i → i = 0
  entry : layout.entry k.memory 0 = shell
  others : ∀ i < maxTasks, i ≠ 0 → layout.entry k.memory i = 0
  stackOf : k.stackOf 0 = stack
  context : contextOf k.cpu = ⟨layout.taskBootstrap, stack.top - 8, [0, 0, 0, 0, 0, 0]⟩
  flags : k.refused = false ∧ k.halted = false

theorem word_of_zero {m : Memory} {a : ℕ} (h : ∀ b, a ≤ b → b < a + 8 → m b = 0) : m.word a = 0 := by
  have hzero : m.readWord a 8 = 0 % 256 ^ 8 := Memory.readWord_of_bytes fun i hi ↦ by
    rw [h _ (Nat.le_add_right _ _) (Nat.add_lt_add_left hi _), Nat.zero_div]
    rfl
  unfold Memory.word
  rw [hzero, Nat.zero_mod]
  rfl

theorem kmain_starts (shell ret : UInt64) {dummy : UInt64} {stack : Stack} {c : Cpu}
    (h : Booting layout dummy stack c) :
    ∃ k, layout.kmain shell dummy ret stack c = some k ∧ Started layout shell stack k := by
  have hmax : maxTasks = 6 := rfl
  have hsp (i : ℕ) (hi : i < maxTasks) : layout.sp c.memory i = 0 :=
    word_of_zero fun a _ _ ↦ h.table a (by unfold Layout.spPlace at *; unfold Layout.InTable; omega)
  have hentry (i : ℕ) (hi : i < maxTasks) : layout.entry c.memory i = 0 :=
    word_of_zero fun a _ _ ↦ h.table a (by unfold Layout.entryPlace at *; unfold Layout.InTable; omega)
  have hslot : layout.freeSlot c.memory shell = some 0 := by
    unfold Layout.freeSlot
    have hrange : List.range maxTasks = [0, 1, 2, 3, 4, 5] := rfl
    rw [hrange, List.find?_cons_of_pos]
    · rfl
    · rw [hsp 0 (by decide), hentry 0 (by decide)]
      rfl
  have hcreated := taskCreate_created (k := ⟨c, -1, false, false, fun _ ↦ ⟨0, 0⟩⟩) hslot h.size h.proper
  unfold Layout.kmain
  generalize layout.taskCreate shell stack ⟨c, -1, false, false, fun _ ↦ ⟨0, 0⟩⟩ = k at hcreated ⊢
  have htop : stack.top = stack.bottom + stack.size := rfl
  have hsize := h.size
  have hbottom := h.proper.bottom
  have hbelow := h.proper.top
  have hapart := h.proper.apart
  have hlive : layout.sp k.memory 0 ≠ 0 := by
    intro hzero
    have hsp := hcreated.sp
    have hzero' : (0 : UInt64).toNat = 0 := rfl
    rw [hzero] at hsp
    omega
  have hfirst : (List.range maxTasks).find? (layout.taken k.memory) = some 0 := by
    have hrange : List.range maxTasks = [0, 1, 2, 3, 4, 5] := rfl
    rw [hrange, List.find?_cons_of_pos (taken_iff.mpr hlive)]
  have hrsp : k.cpu.rsp = c.rsp := congrArg (fun r ↦ (r Register.rsp).toNat) hcreated.registers
  have hroom := h.room
  have hframe := h.frame
  have hdummy := h.dummy
  have hnew := hcreated.sp
  have hwide : (layout.sp k.memory 0).toNat + 56 < 2 ^ 64 := by omega
  have hplace : dummy.toNat + 8 ≤ k.cpu.rsp - 56 ∨ k.cpu.rsp ≤ dummy.toNat := by omega
  have hpassed : Passed k.cpu dummy (layout.sp k.memory 0) ret
      (Layout.switchTo k.cpu dummy (layout.sp k.memory 0) ret) :=
    switchTo_passed (by omega) hplace hwide
  simp only [hfirst, Option.map_some, Option.some.injEq, exists_eq_left']
  generalize Layout.switchTo k.cpu dummy (layout.sp k.memory 0) ret = c' at hpassed ⊢
  have houtside (a : ℕ) (ha : layout.InTable a ∨ stack.Contains a) : c'.memory a = k.memory a := by
    refine hpassed.memory a ?_ ?_
    · rw [hrsp]
      rcases ha with ha | ha
      · unfold Layout.InTable at ha
        omega
      · unfold Stack.Contains at ha
        omega
    · rcases ha with ha | ha
      · unfold Layout.InTable at ha
        omega
      · unfold Stack.Contains at ha
        omega
  have hsp' (i : ℕ) (hi : i < maxTasks) : layout.sp c'.memory i = layout.sp k.memory i :=
    sp_congr hi fun a ha ↦ houtside a (Or.inl ha)
  have hentry' (i : ℕ) (hi : i < maxTasks) : layout.entry c'.memory i = layout.entry k.memory i := by
    have hplace : layout.entryPlace i = layout.tasks + 16 * i + 8 := rfl
    refine Memory.word_congr fun a _ _ ↦ houtside a (Or.inl ?_)
    unfold Layout.InTable
    omega
  have hstack : k.stackOf 0 = stack := by
    rw [hcreated.stackOf, Function.update_self]
  have honly (i : ℕ) (hi : i < maxTasks) (hsp0 : layout.sp c'.memory i ≠ 0) : i = 0 := by
    by_contra hne
    rw [hsp' i hi, hcreated.others i hi hne] at hsp0
    exact hsp0 (hsp i hi)
  have hzero (i : ℕ) (hi : (i < maxTasks ∧ layout.sp c'.memory i ≠ 0) ∨ i = 0) : i = 0 :=
    hi.elim (fun hi ↦ honly i hi.1 hi.2) id
  have hframe' : frameContext c'.memory (stack.top - 64) = frameContext k.memory (stack.top - 64) :=
    frameContext_congr fun a hlow hhigh ↦ houtside a (Or.inr (by unfold Stack.Contains; omega))
  refine ⟨⟨rfl, by decide, fun i hi hne ↦ absurd (honly i hi.1 hi.2) hne, fun i hi ↦ ?_, fun i j hi hj hij ↦
    absurd ((hzero i hi).trans (hzero j hj).symm) hij⟩, ⟨by decide, ?_⟩, fun i hi ↦ honly i hi.1 hi.2, ?_,
    fun i hi hne ↦ ?_, hstack, ?_, ?_⟩
  · rw [hzero i hi]
    change (k.stackOf 0).Proper layout
    rw [hstack]
    exact h.proper
  · change layout.sp c'.memory 0 ≠ 0
    rw [hsp' 0 (by decide)]
    exact hlive
  · exact (hentry' 0 (by decide)).trans hcreated.entry
  · exact (hentry' i hi).trans ((hcreated.entries i hi hne).trans (hentry i hi))
  · rw [← hcreated.context, ← hframe', ← hnew]
    exact hpassed.entered
  · exact hcreated.flags

/-! ### Three tasks -/

def exampleLayout : Layout := ⟨0x100000, by decide, 0x10400⟩

def exampleCpu : Cpu where
  registers r := if r = .rsp then 0x8ff00 else 7
  rip := 0x10200
  rflags := 2
  cs := 0x18
  ss := 0x10
  ds := 0x10
  es := 0x10
  fs := 0
  gs := 0
  cr3 := 0x80000
  fx := Fx.initial 0x1f80
  memory := Memory.zero

def shellStack : Stack := ⟨0x101000, 16384⟩

def appStack : Stack := ⟨0x106000, 65536⟩

def thirdStack : Stack := ⟨0x117000, 65536⟩

theorem booting_example : Booting exampleLayout 0x8ff10 shellStack exampleCpu where
  table _ _ := rfl
  size := by decide
  proper := ⟨by decide, by decide, by decide⟩
  room := by decide
  frame := by decide
  dummy := by decide

def exampleStart : System :=
  (exampleLayout.kmain 0x10600 0x8ff10 0x10200 shellStack exampleCpu).getD
    ⟨exampleCpu, -1, false, false, fun _ ↦ shellStack⟩

theorem kmain_example : exampleLayout.kmain 0x10600 0x8ff10 0x10200 shellStack exampleCpu = some exampleStart := by
  obtain ⟨k, hk, -⟩ := kmain_starts 0x10600 0x10200 booting_example
  unfold exampleStart
  rw [hk]
  rfl

/-- The first task creates a second one and yields to it; the second one creates a third one, which exits. -/
def exampleRun : List Event :=
  [.create 0x10800 appStack, .yield 0x104ff8 0x10700, .create 0x10a00 thirdStack, .yield 0x115ff8 0x10900,
    .exit 0x126ff8 0x10b00]

theorem permitted_create_example :
    Permitted exampleLayout exampleStart exampleStart.cur.toNat (.create 0x10800 appStack) := by
  obtain ⟨k, hk, hstarted⟩ := kmain_starts 0x10600 0x10200 booting_example
  obtain rfl : k = exampleStart := Option.some.inj (hk.symm.trans kmain_example)
  refine ⟨by decide, ⟨by decide, by decide, by decide⟩, fun i hi ↦ ?_⟩
  rw [hstarted.only i hi, hstarted.stackOf]
  exact Or.inr (by decide)

theorem permitted_third_example :
    Permitted exampleLayout (run (step exampleLayout) exampleStart (exampleRun.take 2))
      (run (step exampleLayout) exampleStart (exampleRun.take 2)).cur.toNat (.create 0x10a00 thirdStack) := by
  have honly : ∀ i < maxTasks,
      exampleLayout.sp (run (step exampleLayout) exampleStart (exampleRun.take 2)).memory i ≠ 0 →
        i = 0 ∨ i = 1 := by decide +kernel
  refine ⟨by decide, ⟨by decide, by decide, by decide⟩, fun i hi ↦ ?_⟩
  rcases honly i hi.1 hi.2 with rfl | rfl
  · exact Or.inr (by decide +kernel)
  · exact Or.inr (by decide +kernel)

theorem permits_exit_example :
    Permits exampleLayout (run (step exampleLayout) exampleStart (exampleRun.take 3)) (exampleRun.drop 3) :=
  ⟨⟨by decide +kernel, by decide +kernel⟩, by decide +kernel,
    ⟨⟨by decide +kernel, by decide +kernel⟩, by decide +kernel⟩, by decide +kernel, trivial⟩

theorem permits_example : Permits exampleLayout exampleStart exampleRun :=
  ⟨permitted_create_example, by decide +kernel, ⟨by decide +kernel, by decide +kernel⟩, by decide +kernel,
    permitted_third_example, by decide +kernel, permits_exit_example⟩

/-! ## Runs of the kernel -/

/-- For every run from the start: a task that calls `yield` and runs again later, whatever other tasks have
done, been created or ended meanwhile, returns from the call with the stack pointer, the six registers and
the bytes on its stack that it had. -/
theorem tasks_resume (layout : Layout) (shell dummy start : UInt64) (stack : Stack) (c : Cpu)
    (hboot : Booting layout dummy stack c) (k₀ : System)
    (hstart : layout.kmain shell dummy start stack c = some k₀) (before : List Event) (d ret : UInt64)
    (middle : List Event) (e : Event) (p : ℕ)
    (hpermits : Permits layout k₀ (before ++ .yield d ret :: (middle ++ [e])))
    (hcur : (run (step layout) k₀ before).cur = p)
    (haway : Away layout (run (step layout) k₀ (before ++ [.yield d ret])) p middle)
    (hback : (run (step layout) k₀ (before ++ .yield d ret :: (middle ++ [e]))).cur = p) :
    let k := run (step layout) k₀ before
    let k' := run (step layout) k₀ (before ++ .yield d ret :: (middle ++ [e]))
    contextOf k'.cpu = ⟨ret, k.cpu.rsp, calleeSaved.map k.cpu.registers⟩ ∧
      ∀ a, k.cpu.rsp ≤ a → a < (k.stackOf p).top → k'.memory a = k.memory a := by
  obtain ⟨k₁, hk₁, hstarted⟩ := kmain_starts shell start hboot
  obtain rfl : k₁ = k₀ := Option.some.inj (hk₁.symm.trans hstart)
  obtain ⟨hbefore, hafter⟩ := permits_append.mp hpermits
  obtain ⟨q, hplaced, hlive⟩ := placed_run hstarted.placed hstarted.live hbefore
  obtain rfl : q = p := Int.ofNat.inj (hplaced.cur.symm.trans hcur)
  intro k k'
  have hrun : k' = run (step layout) k (.yield d ret :: (middle ++ [e])) := run_append (step layout) k₁ before _
  have hnext : run (step layout) k₁ (before ++ [.yield d ret]) = step layout k (.yield d ret) :=
    run_concat (step layout) k₁ before _
  rw [hnext] at haway
  rw [hrun]
  exact resumes hplaced hlive hafter haway (hrun ▸ hback)

theorem tasks_resume_example :
    let k := run (step exampleLayout) exampleStart [.create 0x10800 appStack]
    let k' := run (step exampleLayout) exampleStart exampleRun
    contextOf k'.cpu = ⟨0x10700, k.cpu.rsp, calleeSaved.map k.cpu.registers⟩ ∧
      ∀ a, k.cpu.rsp ≤ a → a < (k.stackOf 0).top → k'.memory a = k.memory a := by
  refine tasks_resume exampleLayout 0x10600 0x8ff10 0x10200 shellStack exampleCpu booting_example exampleStart
    kmain_example [.create 0x10800 appStack] 0x104ff8 0x10700 [.create 0x10a00 thirdStack, .yield 0x115ff8 0x10900]
    (.exit 0x126ff8 0x10b00) 0 permits_example (by decide +kernel) ?_ (by decide +kernel)
  intro first second hsplit
  rcases List.cons_eq_append_iff.mp hsplit with ⟨rfl, -⟩ | ⟨first, rfl, hrest⟩
  · decide +kernel
  rcases List.cons_eq_append_iff.mp hrest with ⟨rfl, -⟩ | ⟨last, rfl, hlast⟩
  · decide +kernel
  rw [(List.append_eq_nil_iff.mp hlast.symm).1]
  decide +kernel

/-- For every run from the start, a live task that waits runs before five others have been entered. -/
theorem turn_comes (layout : Layout) (shell dummy start : UInt64) (stack : Stack) (c : Cpu)
    (hboot : Booting layout dummy stack c) (k₀ : System)
    (hstart : layout.kmain shell dummy start stack c = some k₀) (before events : List Event) (i : ℕ)
    (hpermits : Permits layout k₀ (before ++ events)) (hi : Live layout (run (step layout) k₀ before) i)
    (hpasses : maxTasks - 1 ≤ passes layout (run (step layout) k₀ before) events) :
    ∃ first second, events = first ++ second ∧ (run (step layout) k₀ (before ++ first)).cur = i := by
  obtain ⟨k₁, hk₁, hstarted⟩ := kmain_starts shell start hboot
  obtain rfl : k₁ = k₀ := Option.some.inj (hk₁.symm.trans hstart)
  obtain ⟨hbefore, hafter⟩ := permits_append.mp hpermits
  obtain ⟨q, hplaced, hlive⟩ := placed_run hstarted.placed hstarted.live hbefore
  by_contra hnever
  have haway : Away layout (run (step layout) k₁ before) i events := fun first second hsplit hcur ↦
    hnever ⟨first, second, hsplit, by rw [run_append]; exact hcur⟩
  exact absurd (passes_lt hplaced hlive hafter hi haway) (Nat.not_lt.mpr hpasses)

theorem turn_comes_example :
    ∃ first second, List.replicate 5 (Event.yield 0x104ff8 0x10700) = first ++ second ∧
      (run (step exampleLayout) exampleStart ([.create 0x10800 appStack] ++ first)).cur = 1 := by
  have hyield : Permits exampleLayout exampleStart
      ([.create 0x10800 appStack] ++ List.replicate 5 (.yield 0x104ff8 0x10700)) :=
    ⟨permitted_create_example, by decide +kernel, ⟨by decide +kernel, by decide +kernel⟩, by decide +kernel,
      ⟨by decide +kernel, by decide +kernel⟩, by decide +kernel, ⟨by decide +kernel, by decide +kernel⟩,
      by decide +kernel, ⟨by decide +kernel, by decide +kernel⟩, by decide +kernel,
      ⟨by decide +kernel, by decide +kernel⟩, by decide +kernel, trivial⟩
  exact turn_comes exampleLayout 0x10600 0x8ff10 0x10200 shellStack exampleCpu booting_example exampleStart
    kmain_example [.create 0x10800 appStack] _ 1 hyield ⟨by decide, by decide +kernel⟩ (by decide +kernel)

end JordyOS.Kernel
