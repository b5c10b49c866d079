import JordyOS.Kernel.Cooperation

/-!
# The shell and its application

The two tasks that the kernel ever has.  The shell starts an application and then does nothing but yield
until no other task is left, so the console has one owner, and the stack for applications is free whenever
one is started.
-/

namespace JordyOS.Kernel

open Machine

/-- Where the linker puts the two functions and their stacks. -/
structure Linkage where
  layout : Layout
  shell : UInt64
  appApe : UInt64
  shStack : Stack
  appStack : Stack
  distinct : shell ≠ appApe
  shSize : shStack.size = 16384
  appSize : appStack.size = 65536
  shProper : shStack.Proper layout
  appProper : appStack.Proper layout
  apart : appStack.Apart shStack

/-- The system, and whether the shell is in its inner loop. -/
structure Session where
  system : System
  waiting : Bool

/-- What the running task does next. -/
inductive Action
  | compute (cpu : Cpu)
  /-- The shell handles a command that starts the application. -/
  | launch
  /-- The shell handles another command. -/
  | command
  /-- A round of the shell's inner loop. -/
  | poll (d ret : UInt64)
  /-- The application calls `sys_yield`. -/
  | yield (d ret : UInt64)
  /-- The application returns, or calls `sys_exit_task`. -/
  | exit (d ret : UInt64)

variable (linkage : Linkage)

/-- Some other task is there. -/
def foreground (k : System) : Bool :=
  (List.range maxTasks).any fun i ↦ (i : ℤ) != k.cur && linkage.layout.taken k.memory i

def act (s : Session) : Action → Session
  | .compute cpu => { s with system := step linkage.layout s.system (.compute cpu) }
  | .launch => ⟨step linkage.layout s.system (.create linkage.appApe linkage.appStack), true⟩
  | .command => { s with waiting := true }
  | .poll d ret =>
    if foreground linkage s.system then { s with system := step linkage.layout s.system (.yield d ret) }
    else { s with waiting := false }
  | .yield d ret => { s with system := step linkage.layout s.system (.yield d ret) }
  | .exit d ret => { s with system := step linkage.layout s.system (.exit d ret) }

/-- The function that the running task was created for. -/
def running (k : System) : UInt64 := linkage.layout.entry k.memory k.cur.toNat

/-- The function that runs does this, there is room on its stack, and its own code leaves the array of tasks
and the other stack alone. -/
def Allows (s : Session) : Action → Prop
  | .compute cpu => Permitted linkage.layout s.system s.system.cur.toNat (.compute cpu)
  | .launch | .command => running linkage s.system = linkage.shell ∧ s.waiting = false
  | .poll d ret => running linkage s.system = linkage.shell ∧ s.waiting = true ∧
      Permitted linkage.layout s.system s.system.cur.toNat (.yield d ret)
  | .yield d ret => running linkage s.system = linkage.appApe ∧
      Permitted linkage.layout s.system s.system.cur.toNat (.yield d ret)
  | .exit d ret => running linkage s.system = linkage.appApe ∧
      Permitted linkage.layout s.system s.system.cur.toNat (.exit d ret)

def AllowsAll (s : Session) : List Action → Prop
  | [] => True
  | a :: actions => Allows linkage s a ∧ AllowsAll (act linkage s a) actions

/-! ## Entries -/

def Event.creates : Event → Bool
  | .create _ _ => true
  | _ => false

def Event.exits : Event → Bool
  | .exit _ _ => true
  | _ => false

variable {linkage} {layout : Layout} {k : System} {p q i : ℕ} {e : Event}

/-- Only `task_create` writes entries. -/
theorem entry_step (h : Placed layout k p) (hlive : Live layout k p) (hpermitted : Permitted layout k p e)
    (hcreate : e.creates = false) (hi : i < maxTasks) :
    layout.entry (step layout k e).memory i = layout.entry k.memory i := by
  have hmax : maxTasks = 6 := rfl
  have hplace : layout.entryPlace i = layout.tasks + 16 * i + 8 := rfl
  have hp : layout.spPlace p = layout.tasks + 16 * p := rfl
  have hlt := h.lt
  have hproper := (h.stack p (Or.inr rfl)).apart
  cases e with
  | compute cpu =>
    refine Memory.word_congr fun a _ _ ↦ hpermitted a (Or.inl ?_)
    unfold Layout.InTable
    omega
  | create fn stack => cases hcreate
  | yield d ret =>
    rw [step_yield, yield_of_live h hlive]
    cases hnext : layout.next k.memory p with
    | none => rfl
    | some n =>
      refine Memory.word_congr fun a _ _ ↦ memory_switched h hpermitted hnext
        (Or.inl (toNat_spPlace layout h.lt)) ret ?_ (by omega)
      unfold Stack.Contains
      omega
  | exit d ret =>
    obtain ⟨hplaced, hzero, hsp, -⟩ := clearSp_spec h
    have hcleared (a : ℕ) (ha : a < layout.spPlace p ∨ layout.spPlace p + 8 ≤ a) :
        (layout.clearSp k).memory a = k.memory a := by
      rw [clearSp_eq h]
      exact Memory.setWord_of_outside _ ha
    rw [step_exit, Layout.sysExitTask, yield_eq hplaced]
    cases hnext : layout.next (layout.clearSp k).memory p with
    | none => exact Memory.word_congr fun a _ _ ↦ hcleared a (by omega)
    | some n =>
      obtain ⟨hstack, hready⟩ := clearSp_ready h hpermitted
      have hsame : (layout.clearSp k).stackOf = k.stackOf := by rw [clearSp_eq h]
      refine Memory.word_congr fun a _ _ ↦ (memory_switched hplaced hstack hnext hready ret ?_ (by omega)).trans
        (hcleared a (by omega))
      rw [hsame]
      unfold Stack.Contains
      omega

theorem yield_rest {d ret : UInt64} {k' : System} (h : layout.yield d ret k = some k') :
    k'.stackOf = k.stackOf ∧ k'.refused = k.refused ∧ k'.halted = k.halted := by
  unfold Layout.yield at h
  rw [Option.ite_none_left_eq_some] at h
  obtain ⟨n, -, hk'⟩ := Option.map_eq_some_iff.mp h.2
  rw [← hk']
  exact ⟨rfl, rfl, rfl⟩

theorem clearSp_rest (layout : Layout) (k : System) :
    (layout.clearSp k).stackOf = k.stackOf ∧ (layout.clearSp k).refused = k.refused ∧
      (layout.clearSp k).halted = k.halted := by
  unfold Layout.clearSp
  split
  · exact ⟨rfl, rfl, rfl⟩
  · exact ⟨rfl, rfl, rfl⟩

/-- Only `task_create` gives stacks, or finds no slot. -/
theorem stackOf_step (layout : Layout) (k : System) (hcreate : e.creates = false) :
    (step layout k e).stackOf = k.stackOf ∧ (step layout k e).refused = k.refused := by
  cases e with
  | compute cpu => exact ⟨rfl, rfl⟩
  | create fn stack => cases hcreate
  | yield d ret =>
    rw [step_yield]
    cases hyield : layout.yield d ret k with
    | none => exact ⟨rfl, rfl⟩
    | some k' => exact ⟨(yield_rest hyield).1, (yield_rest hyield).2.1⟩
  | exit d ret =>
    obtain ⟨hstack, hrefused, -⟩ := clearSp_rest layout k
    rw [step_exit, Layout.sysExitTask]
    cases hyield : layout.yield d ret (layout.clearSp k) with
    | none => exact ⟨hstack, hrefused⟩
    | some k' =>
      obtain ⟨hstack', hrefused', -⟩ := yield_rest hyield
      exact ⟨hstack'.trans hstack, hrefused'.trans hrefused⟩

/-- A task halts only when it exits as the last one. -/
theorem halted_step (h : Placed layout k p) (hi : Live layout k i) (hip : i ≠ p) (hruns : k.halted = false) :
    (step layout k e).halted = false := by
  cases e with
  | compute cpu => exact hruns
  | create fn stack =>
    rw [step_create]
    cases hslot : layout.freeSlot k.memory fn with
    | none => rw [taskCreate_of_none hslot]; exact hruns
    | some n => rw [taskCreate_of_some hslot]; exact hruns
  | yield d ret =>
    rw [step_yield]
    cases hyield : layout.yield d ret k with
    | none => exact hruns
    | some k' => exact (yield_rest hyield).2.2.trans hruns
  | exit d ret =>
    obtain ⟨hplaced, -, hsp, -⟩ := clearSp_spec h
    rw [step_exit, Layout.sysExitTask]
    cases hyield : layout.yield d ret (layout.clearSp k) with
    | none =>
      rw [yield_eq hplaced, Option.map_eq_none_iff] at hyield
      have hfree := next_eq_none h.lt hyield hi.1 hip
      rw [hsp i hi.1 hip] at hfree
      exact absurd hfree hi.2
    | some k' => exact (yield_rest hyield).2.2.trans ((clearSp_rest layout k).2.2.trans hruns)

/-- Only `task_create` makes tasks. -/
theorem live_step (h : Placed layout k p) (hlive : Live layout k p) (hpermitted : Permitted layout k p e)
    (hcreate : e.creates = false) (hi : Live layout (step layout k e) i) : Live layout k i := by
  by_cases hip : i = p
  · exact hip ▸ hlive
  · cases e with
    | compute cpu =>
      have hsp : layout.sp cpu.memory i = layout.sp k.memory i :=
        sp_congr hi.1 fun a ha ↦ hpermitted a (Or.inl ha)
      exact ⟨hi.1, by rw [← hsp]; exact hi.2⟩
    | create fn stack => cases hcreate
    | yield d ret =>
      rw [step_yield, yield_of_live h hlive] at hi
      cases hnext : layout.next k.memory p with
      | none =>
        rw [hnext] at hi
        exact hi
      | some n =>
        rw [hnext] at hi
        exact (live_switched h hpermitted hnext (Or.inl (toNat_spPlace layout h.lt)) ret hip).mp hi
    | exit d ret =>
      obtain ⟨hplaced, -, hsp, -⟩ := clearSp_spec h
      have hcleared : Live layout (layout.clearSp k) i → Live layout k i := fun hi ↦
        ⟨hi.1, by rw [← hsp i hi.1 hip]; exact hi.2⟩
      rw [step_exit, Layout.sysExitTask, yield_eq hplaced] at hi
      cases hnext : layout.next (layout.clearSp k).memory p with
      | none =>
        rw [hnext] at hi
        exact hcleared hi
      | some n =>
        rw [hnext] at hi
        obtain ⟨hstack, hready⟩ := clearSp_ready h hpermitted
        exact hcleared ((live_switched hplaced hstack hnext hready ret hip).mp hi)

/-- A task stays unless it exits. -/
theorem live_step_self (h : Placed layout k p) (hlive : Live layout k p) (hpermitted : Permitted layout k p e)
    (hcreate : e.creates = false) (hexit : e.exits = false) :
    Live layout (step layout k e) p := by
  cases e with
  | compute cpu => exact (compute_advances h hlive hpermitted).live
  | create fn stack => cases hcreate
  | yield d ret =>
    rw [step_yield, yield_of_live h hlive]
    cases hnext : layout.next k.memory p with
    | none => exact hlive
    | some n => exact (switched_parked h hpermitted hnext (toNat_spPlace layout h.lt) ret).live
  | exit d ret => cases hexit

/-! ## The invariant -/

/-- The shell is in slot 0; the application, if any, in slot 1, on the stack for applications, and the shell
waits for it. -/
structure Shaped (linkage : Linkage) (s : Session) (p : ℕ) : Prop where
  placed : Placed linkage.layout s.system p
  live : Live linkage.layout s.system p
  shell : Live linkage.layout s.system 0
  only : ∀ i, Live linkage.layout s.system i → i = 0 ∨ i = 1
  entry : linkage.layout.entry s.system.memory 0 = linkage.shell
  app : linkage.layout.entry s.system.memory 1 = 0 ∨ linkage.layout.entry s.system.memory 1 = linkage.appApe
  appEntry : Live linkage.layout s.system 1 → linkage.layout.entry s.system.memory 1 = linkage.appApe
  shStack : s.system.stackOf 0 = linkage.shStack
  appStack : Live linkage.layout s.system 1 → s.system.stackOf 1 = linkage.appStack
  waits : Live linkage.layout s.system 1 → s.waiting = true
  flags : s.system.refused = false ∧ s.system.halted = false

variable {s : Session}

/-- A step that creates no task keeps the shape, as long as the shell does not exit and a running application
stays waited for. -/
theorem Shaped.step (h : Shaped linkage s p) (hpermitted : Permitted linkage.layout s.system p e)
    (hcreate : e.creates = false) (hexit : p = 0 → e.exits = false)
    (waiting : Bool) (hwaiting : Live linkage.layout s.system 1 → waiting = true) :
    ∃ q, Shaped linkage ⟨Kernel.step linkage.layout s.system e, waiting⟩ q := by
  have hold (i : ℕ) := live_step (i := i) h.placed h.live hpermitted hcreate
  have hentry (i : ℕ) (hi : i < maxTasks) := entry_step h.placed h.live hpermitted hcreate hi
  have hhalted : (Kernel.step linkage.layout s.system e).halted = false := by
    by_cases hp : p = 0
    · cases e with
      | compute cpu => exact h.flags.2
      | create fn stack => cases hcreate
      | yield d ret =>
        rw [step_yield]
        cases hyield : linkage.layout.yield d ret s.system with
        | none => exact h.flags.2
        | some k' => exact (yield_rest hyield).2.2.trans h.flags.2
      | exit d ret => cases hexit hp
    · exact halted_step h.placed h.shell (Ne.symm hp) h.flags.2
  obtain ⟨hstack, hrefused⟩ := stackOf_step linkage.layout s.system hcreate
  obtain ⟨q, hq⟩ := step_advances h.placed h.live hpermitted hhalted
  have hshell : Live linkage.layout (Kernel.step linkage.layout s.system e) 0 := by
    by_cases hp : p = 0
    · subst hp
      exact live_step_self h.placed h.live hpermitted hcreate (hexit rfl)
    · exact (hq.kept 0 h.shell (Ne.symm hp)).live h.shell
  refine ⟨q, hq.placed, hq.live, hshell, fun i hi ↦ h.only i (hold i hi), ?_, ?_, fun hi ↦ ?_, ?_, fun hi ↦ ?_,
    fun hi ↦ hwaiting (hold 1 hi), hrefused.trans h.flags.1, hhalted⟩
  · exact (hentry 0 (by decide)).trans h.entry
  · have hsame := hentry 1 (by decide)
    exact h.app.imp hsame.trans hsame.trans
  · exact (hentry 1 (by decide)).trans (h.appEntry (hold 1 hi))
  · exact (congrFun hstack 0).trans h.shStack
  · exact (congrFun hstack 1).trans (h.appStack (hold 1 hi))

/-- An application is started in slot 1, on a stack that nothing uses. -/
theorem Shaped.launch (h : Shaped linkage s p) (hwaiting : s.waiting = false) :
    Shaped linkage ⟨Kernel.step linkage.layout s.system (.create linkage.appApe linkage.appStack), true⟩ 0 := by
  have hfree : linkage.layout.sp s.system.memory 1 = 0 := by
    by_contra hlive
    have hwaits := h.waits ⟨by decide, hlive⟩
    rw [hwaiting] at hwaits
    cases hwaits
  have honly (i : ℕ) (hi : Live linkage.layout s.system i) : i = 0 := by
    rcases h.only i hi with hi0 | hi1
    · exact hi0
    · rw [hi1] at hi
      exact absurd hfree hi.2
  obtain rfl : p = 0 := honly p h.live
  have hsize : 64 ≤ linkage.appStack.size := by
    rw [linkage.appSize]
    decide
  have hpermitted : Permitted linkage.layout s.system 0 (.create linkage.appApe linkage.appStack) := by
    refine ⟨hsize, linkage.appProper, fun i hi ↦ ?_⟩
    rw [honly i hi, h.shStack]
    exact linkage.apart
  have hslot : linkage.layout.freeSlot s.system.memory linkage.appApe = some 1 := by
    have hrange : List.range maxTasks = [0, 1, 2, 3, 4, 5] := rfl
    have hbusy : (linkage.layout.sp s.system.memory 0 == 0) = false := beq_eq_false_iff_ne.mpr h.shell.2
    have hentry : (linkage.layout.entry s.system.memory 1 == 0 ||
        linkage.layout.entry s.system.memory 1 == linkage.appApe) = true := by
      rw [Bool.or_eq_true, beq_iff_eq, beq_iff_eq]
      exact h.app
    unfold Layout.freeSlot
    rw [hrange, List.find?_cons_of_neg (by rw [hbusy, Bool.false_and]; decide),
      List.find?_cons_of_pos (by rw [hentry, Bool.and_true, beq_iff_eq]; exact hfree)]
    rfl
  have hadvances := create_advances h.placed h.live hpermitted
  have hcreated := taskCreate_created hslot hsize linkage.appProper
  rw [← step_create] at hcreated
  generalize Kernel.step linkage.layout s.system (.create linkage.appApe linkage.appStack) = k' at hadvances hcreated ⊢
  have hold (i : ℕ) (hi : Live linkage.layout k' i) : i = 0 ∨ i = 1 := by
    by_cases hi1 : i = 1
    · exact Or.inr hi1
    · exact Or.inl (honly i ⟨hi.1, by rw [← hcreated.others i hi.1 hi1]; exact hi.2⟩)
  refine ⟨hadvances.placed, hadvances.live, hadvances.live, hold, ?_, Or.inr hcreated.entry, fun _ ↦ hcreated.entry,
    ?_, fun _ ↦ ?_, fun _ ↦ rfl, hcreated.flags.1.trans h.flags.1, hcreated.flags.2.trans h.flags.2⟩
  · exact (hcreated.entries 0 (by decide) Nat.zero_ne_one).trans h.entry
  · rw [hcreated.stackOf, Function.update_of_ne Nat.zero_ne_one]
    exact h.shStack
  · rw [hcreated.stackOf, Function.update_self]

/-- The slot that runs the application is not the shell's. -/
theorem Shaped.ne_zero (h : Shaped linkage s p) (hrunning : running linkage s.system = linkage.appApe) : p ≠ 0 := by
  rintro rfl
  unfold running at hrunning
  rw [h.placed.toNat_cur, h.entry] at hrunning
  exact linkage.distinct hrunning

theorem Shaped.eq_zero (h : Shaped linkage s p) (hrunning : running linkage s.system = linkage.shell) : p = 0 := by
  refine (h.only p h.live).resolve_right ?_
  rintro rfl
  unfold running at hrunning
  rw [h.placed.toNat_cur, h.appEntry h.live] at hrunning
  exact linkage.distinct hrunning.symm

theorem foreground_of_live (hi : Live linkage.layout k i) (hcur : (i : ℤ) ≠ k.cur) :
    foreground linkage k = true := by
  unfold foreground
  rw [List.any_eq_true]
  exact ⟨i, List.mem_range.mpr hi.1, by rw [Bool.and_eq_true, bne_iff_ne]; exact ⟨hcur, taken_iff.mpr hi.2⟩⟩

theorem Shaped.act (h : Shaped linkage s p) {a : Action} (hallows : Allows linkage s a) :
    ∃ q, Shaped linkage (act linkage s a) q := by
  have hcur := h.placed.toNat_cur
  cases a with
  | compute cpu => exact h.step (hcur ▸ hallows) rfl (fun _ ↦ rfl) s.waiting h.waits
  | launch => exact ⟨0, h.launch hallows.2⟩
  | command => exact ⟨p, h.placed, h.live, h.shell, h.only, h.entry, h.app, h.appEntry, h.shStack, h.appStack,
      fun _ ↦ rfl, h.flags⟩
  | poll d ret =>
    obtain ⟨hrunning, hwaiting, hpermitted⟩ := hallows
    rw [hcur] at hpermitted
    unfold Kernel.act
    dsimp only
    split
    · exact h.step hpermitted rfl (fun _ ↦ rfl) s.waiting h.waits
    · rename_i hforeground
      have hp : p = 0 := h.eq_zero hrunning
      refine ⟨p, h.placed, h.live, h.shell, h.only, h.entry, h.app, h.appEntry, h.shStack, h.appStack, fun hi ↦ ?_,
        h.flags⟩
      refine absurd (foreground_of_live hi ?_) hforeground
      rw [h.placed.cur, hp]
      decide
  | yield d ret => exact h.step (hcur ▸ hallows.2) rfl (fun _ ↦ rfl) s.waiting h.waits
  | exit d ret =>
    exact h.step (hcur ▸ hallows.2) rfl (fun hp ↦ absurd hp (h.ne_zero hallows.1)) s.waiting h.waits

/-- The shell runs when an application has ended. -/
theorem Shaped.exit (h : Shaped linkage s p) {d ret : UInt64} (hallows : Allows linkage s (.exit d ret)) :
    (Kernel.act linkage s (.exit d ret)).system.cur = 0 := by
  have hne := h.ne_zero hallows.1
  have hpermitted := hallows.2
  rw [h.placed.toNat_cur] at hpermitted
  have hruns := halted_step (e := .exit d ret) h.placed h.shell (Ne.symm hne) h.flags.2
  obtain ⟨q, hqp, hq⟩ := exit_advances h.placed hpermitted hruns
  have hp := (h.only p h.live).resolve_left hne
  have hq' := h.only q (live_step h.placed h.live hpermitted rfl hq.live)
  have hzero : q = 0 := by omega
  exact hq.placed.cur.trans (congrArg Int.ofNat hzero)

/-! ## Runs -/

theorem Shaped.run {actions : List Action} (h : Shaped linkage s p) (hallows : AllowsAll linkage s actions) :
    ∃ q, Shaped linkage (run (Kernel.act linkage) s actions) q := by
  induction actions generalizing s p with
  | nil => exact ⟨p, h⟩
  | cons a actions ih =>
    obtain ⟨q, hq⟩ := h.act hallows.1
    exact ih hq hallows.2

theorem Started.shaped {linkage : Linkage} (h : Started linkage.layout linkage.shell linkage.shStack k) :
    Shaped linkage ⟨k, false⟩ 0 where
  placed := h.placed
  live := h.live
  shell := h.live
  only i hi := Or.inl (h.only i hi)
  entry := h.entry
  app := Or.inl (h.others 1 (by decide) (by decide))
  appEntry hi := absurd (h.only 1 hi) (by decide)
  shStack := h.stackOf
  appStack hi := absurd (h.only 1 hi) (by decide)
  waits hi := absurd (h.only 1 hi) (by decide)
  flags := h.flags

/-- For every run from the start: the kernel never runs out of slots, no task that has exited is resumed, and
there are never other tasks than the shell in slot 0 and an application in slot 1, on its own stack.  While the
shell handles commands there is no application, and an application that ends hands over to the shell. -/
theorem kernel_tasks (linkage : Linkage) (dummy start : UInt64) (c : Cpu)
    (hboot : Booting linkage.layout dummy linkage.shStack c) (k₀ : System)
    (hstart : linkage.layout.kmain linkage.shell dummy start linkage.shStack c = some k₀) (actions : List Action)
    (hallows : AllowsAll linkage ⟨k₀, false⟩ actions) :
    let s := run (act linkage) ⟨k₀, false⟩ actions
    s.system.refused = false ∧ s.system.halted = false ∧ (s.system.cur = 0 ∨ s.system.cur = 1) ∧
      Live linkage.layout s.system 0 ∧ (∀ i, Live linkage.layout s.system i → i = 0 ∨ i = 1) ∧
      (Live linkage.layout s.system 1 → s.system.stackOf 1 = linkage.appStack ∧ s.waiting = true) ∧
      (s.waiting = false → s.system.cur = 0 ∧ ∀ i, Live linkage.layout s.system i → i = 0) ∧
      ∀ d ret, Allows linkage s (.exit d ret) → (act linkage s (.exit d ret)).system.cur = 0 := by
  obtain ⟨k, hk, hstarted⟩ := kmain_starts linkage.shell start hboot
  obtain rfl : k = k₀ := Option.some.inj (hk.symm.trans hstart)
  obtain ⟨p, hp⟩ := hstarted.shaped.run hallows
  intro s
  refine ⟨hp.flags.1, hp.flags.2, ?_, hp.shell, hp.only, fun hi ↦ ⟨hp.appStack hi, hp.waits hi⟩, ?_, ?_⟩
  · rw [hp.placed.cur]
    rcases hp.only p hp.live with rfl | rfl
    · exact Or.inl rfl
    · exact Or.inr rfl
  · intro hwaiting
    have honly (i : ℕ) (hi : Live linkage.layout s.system i) : i = 0 := by
      refine (hp.only i hi).resolve_right ?_
      rintro rfl
      have hwaits := hp.waits hi
      rw [hwaiting] at hwaits
      cases hwaits
    exact ⟨hp.placed.cur.trans (congrArg Int.ofNat (honly p hp.live)), honly⟩
  · intro d ret hexit
    exact hp.exit hexit

def exampleLinkage : Linkage where
  layout := exampleLayout
  shell := 0x10600
  appApe := 0x10800
  shStack := shellStack
  appStack := appStack
  distinct := by decide
  shSize := rfl
  appSize := rfl
  shProper := ⟨by decide, by decide, by decide⟩
  appProper := ⟨by decide, by decide, by decide⟩
  apart := Or.inr (by decide)

/-- An application is started, runs and ends. -/
theorem kernel_tasks_example :
    let s := run (act exampleLinkage) ⟨exampleStart, false⟩
      [.launch, .poll 0x104ff8 0x10700, .exit 0x115ff8 0x10900, .poll 0x104ff8 0x10700]
    s.system.refused = false ∧ s.system.halted = false ∧ (s.system.cur = 0 ∨ s.system.cur = 1) ∧
      Live exampleLinkage.layout s.system 0 ∧ (∀ i, Live exampleLinkage.layout s.system i → i = 0 ∨ i = 1) ∧
      (Live exampleLinkage.layout s.system 1 → s.system.stackOf 1 = exampleLinkage.appStack ∧ s.waiting = true) ∧
      (s.waiting = false → s.system.cur = 0 ∧ ∀ i, Live exampleLinkage.layout s.system i → i = 0) ∧
      ∀ d ret, Allows exampleLinkage s (.exit d ret) →
        (act exampleLinkage s (.exit d ret)).system.cur = 0 :=
  kernel_tasks exampleLinkage 0x8ff10 0x10200 exampleCpu booting_example exampleStart kmain_example
    [.launch, .poll 0x104ff8 0x10700, .exit 0x115ff8 0x10900, .poll 0x104ff8 0x10700]
    ⟨⟨by decide +kernel, rfl⟩, ⟨by decide +kernel, rfl, by decide +kernel, by decide +kernel⟩,
      ⟨by decide +kernel, ⟨by decide +kernel, by decide +kernel⟩, by decide +kernel⟩,
      ⟨by decide +kernel, by decide +kernel, by decide +kernel, by decide +kernel⟩, trivial⟩

end JordyOS.Kernel
