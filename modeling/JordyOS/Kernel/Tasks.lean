import JordyOS.Kernel.ContextSwitch
import JordyOS.Machine.Rotation
import Mathlib.Data.List.Basic

/-!
# Tasks

The cooperative tasks of `kernel.c`.  The array `tasks` is part of memory, since `ctx_switch` writes to it;
the rest of a task is its stack.  Between the calls a task runs code of its own, which leaves the array and
the stacks of the other tasks alone.
-/

namespace JordyOS.Kernel

open Machine

def maxTasks : ℕ := 6

/-- Where `tasks` and `task_bootstrap` lie. -/
structure Layout where
  tasks : ℕ
  bounded : tasks + 16 * maxTasks < 2 ^ 64
  taskBootstrap : UInt64

structure Stack where
  bottom : ℕ
  size : ℕ

def Stack.top (s : Stack) : ℕ := s.bottom + s.size

structure System where
  cpu : Cpu
  cur : ℤ
  /-- `E:MAX_TASKS` has been printed. -/
  refused : Bool
  /-- A task that has exited was resumed, and has halted. -/
  halted : Bool
  /-- The stack that the task in each slot was created with.  No code reads this. -/
  stackOf : ℕ → Stack

def System.memory (k : System) : Memory := k.cpu.memory

namespace Layout

variable (layout : Layout)

def spPlace (i : ℕ) : ℕ := layout.tasks + 16 * i

def entryPlace (i : ℕ) : ℕ := layout.tasks + 16 * i + 8

/-- `tasks[i].sp` -/
def sp (m : Memory) (i : ℕ) : UInt64 := m.word (layout.spPlace i)

def entry (m : Memory) (i : ℕ) : UInt64 := m.word (layout.entryPlace i)

/-- `tasks[i].sp != NULL` -/
def taken (m : Memory) (i : ℕ) : Bool := layout.sp m i != 0

/-! ## yield -/

/-- The slot that the loop of `yield` finds, if it is another one and not free. -/
def next (m : Memory) (p : ℕ) : Option ℕ :=
  let n := Rotation.search maxTasks (layout.taken m) p maxTasks ((p + 1) % maxTasks)
  if layout.sp m n = 0 ∨ n = p then none else some n

/-- The call `ctx_switch(o, new)`, which returns to `ret`. -/
def switchTo (c : Cpu) (o new ret : UInt64) : Cpu := ctxSwitch (((c.set .rdi o).set .rsi new).push ret)

/-- `d` is the address of the local variable; there is no result when `yield` returns at once. -/
def yield (d ret : UInt64) (k : System) : Option System :=
  if k.cur = -1 then none
  else
    let p := k.cur.toNat
    (layout.next k.memory p).map fun n ↦
      let o := if layout.sp k.memory p = 0 then d else UInt64.ofNat (layout.spPlace p)
      { k with cpu := switchTo k.cpu o (layout.sp k.memory n) ret, cur := n }

/-! ## sys_exit_task -/

def clearSp (k : System) : System :=
  if k.cur = -1 then k
  else { k with cpu := { k.cpu with memory := k.memory.setWord (layout.spPlace k.cur.toNat) 0 } }

def sysExitTask (d ret : UInt64) (k : System) : System :=
  (layout.yield d ret (layout.clearSp k)).getD { layout.clearSp k with halted := true }

/-! ## task_create -/

def freeSlot (m : Memory) (fn : UInt64) : Option ℕ :=
  ((List.range maxTasks).find? fun i ↦
      layout.sp m i == 0 && (layout.entry m i == 0 || layout.entry m i == fn)).or
    ((List.range maxTasks).find? fun i ↦ layout.sp m i == 0)

/-- A return address for the first function, the first function, and six registers. -/
def firstFrame (m : Memory) (top : ℕ) : Memory :=
  (List.range 6).foldl (fun m i ↦ m.setWord (top - 24 - 8 * i) 0)
    ((m.setWord (top - 8) 0).setWord (top - 16) layout.taskBootstrap)

def taskCreate (fn : UInt64) (stack : Stack) (k : System) : System :=
  match layout.freeSlot k.memory fn with
  | some si =>
    let m := layout.firstFrame k.memory stack.top
    let m := m.setWord (layout.spPlace si) (UInt64.ofNat (stack.top - 64))
    let m := m.setWord (layout.entryPlace si) fn
    { k with cpu := { k.cpu with memory := m }, stackOf := Function.update k.stackOf si stack }
  | none => { k with refused := true }

/-! ## kmain -/

/-- The end of `kmain`: the first task is created and entered.  `ctx_switch` writes to a local variable; there
is no result when there is no task. -/
def kmain (shell dummy ret : UInt64) (shStack : Stack) (c : Cpu) : Option System :=
  let k := layout.taskCreate shell shStack ⟨c, -1, false, false, fun _ ↦ ⟨0, 0⟩⟩
  ((List.range maxTasks).find? (layout.taken k.memory)).map fun i ↦
    { k with cpu := switchTo k.cpu dummy (layout.sp k.memory i) ret, cur := i }

end Layout

/-! ## Steps -/

/-- What the running task does next. -/
inductive Event
  /-- Code of its own, which leaves the processor in this state. -/
  | compute (cpu : Cpu)
  | create (fn : UInt64) (stack : Stack)
  | yield (d ret : UInt64)
  | exit (d ret : UInt64)

def step (layout : Layout) (k : System) : Event → System
  | .compute cpu => { k with cpu := cpu }
  | .create fn stack => layout.taskCreate fn stack k
  | .yield d ret => (layout.yield d ret k).getD k
  | .exit d ret => layout.sysExitTask d ret k

variable {layout : Layout} {m : Memory} {p n i : ℕ}

theorem step_create (k : System) (fn : UInt64) (stack : Stack) :
    step layout k (.create fn stack) = layout.taskCreate fn stack k := rfl

theorem step_yield (k : System) (d ret : UInt64) :
    step layout k (.yield d ret) = (layout.yield d ret k).getD k := rfl

theorem step_exit (k : System) (d ret : UInt64) :
    step layout k (.exit d ret) = layout.sysExitTask d ret k := rfl

theorem taken_iff : layout.taken m i = true ↔ layout.sp m i ≠ 0 := bne_iff_ne

/-! ## The loop of yield -/

/-- The loop ends within a turn, at the first slot that is not free. -/
theorem next_spec (hp : p < maxTasks) (h : layout.next m p = some n) :
    n < maxTasks ∧ n ≠ p ∧ layout.sp m n ≠ 0 ∧
      Rotation.Foremost maxTasks (layout.taken m) p n := by
  obtain ⟨hlt, -, hforemost⟩ := Rotation.search_spec (layout.taken m) hp
  unfold Layout.next at h
  rw [Option.ite_none_left_eq_some, Option.some.injEq, not_or] at h
  obtain ⟨⟨hlive, hne⟩, rfl⟩ := h
  exact ⟨hlt, hne, hlive, hforemost⟩

theorem next_eq_none (hp : p < maxTasks) (h : layout.next m p = none) (hi : i < maxTasks) (hne : i ≠ p) :
    layout.sp m i = 0 := by
  obtain ⟨hlt, hready, hforemost⟩ := Rotation.search_spec (layout.taken m) hp
  unfold Layout.next at h
  simp only [ite_eq_left_iff, reduceCtorEq, imp_false, not_not] at h
  by_contra hlive
  have hle := hforemost i hi hne (taken_iff.mpr hlive)
  rcases hready with hready | hready
  · rcases h with hdead | hsame
    · exact taken_iff.mp hready hdead
    · rw [hsame] at hle
      have hlt := Rotation.offset_lt hp hi hne
      have hcases := Rotation.offset_cases maxTasks p p
      omega
  · rw [hready] at hle
    have hlt := Rotation.offset_lt hp hi hne
    have hcases := Rotation.offset_cases maxTasks p p
    omega

end JordyOS.Kernel
