import JordyOS.Kernel.Tasks

/-!
# Handing over the processor

What a step of the running task does to the others: their frames and their stacks stay as they are, and when
one of them is entered it is by its frame.
-/

namespace JordyOS.Kernel

open Machine

/-! ## Sound systems -/

def Live (layout : Layout) (k : System) (i : ℕ) : Prop := i < maxTasks ∧ layout.sp k.memory i ≠ 0

/-- The bytes of the array `tasks`. -/
def Layout.InTable (layout : Layout) (a : ℕ) : Prop := layout.tasks ≤ a ∧ a < layout.tasks + 16 * maxTasks

def Stack.Contains (s : Stack) (a : ℕ) : Prop := s.bottom ≤ a ∧ a < s.top

/-- Two stacks without a common byte. -/
def Stack.Apart (s t : Stack) : Prop := s.top ≤ t.bottom ∨ t.top ≤ s.bottom

structure Stack.Proper (layout : Layout) (s : Stack) : Prop where
  bottom : 0 < s.bottom
  top : s.top < 2 ^ 64
  apart : s.top ≤ layout.tasks ∨ layout.tasks + 16 * maxTasks ≤ s.bottom

/-- The task in slot `p` runs; every other task has its frame on a stack of its own. -/
structure Placed (layout : Layout) (k : System) (p : ℕ) : Prop where
  cur : k.cur = p
  lt : p < maxTasks
  frame : ∀ i, Live layout k i → i ≠ p → (k.stackOf i).bottom ≤ (layout.sp k.memory i).toNat ∧
    (layout.sp k.memory i).toNat + 56 ≤ (k.stackOf i).top
  stack : ∀ i, Live layout k i ∨ i = p → (k.stackOf i).Proper layout
  apart : ∀ i j, Live layout k i ∨ i = p → Live layout k j ∨ j = p → i ≠ j →
    (k.stackOf i).Apart (k.stackOf j)

/-- There is room for a frame below the stack pointer. -/
structure OnStack (k : System) (p : ℕ) : Prop where
  room : (k.stackOf p).bottom + 56 ≤ k.cpu.rsp
  top : k.cpu.rsp ≤ (k.stackOf p).top

/-- Nothing of the task in slot `i` has changed. -/
structure Keeps (layout : Layout) (k k' : System) (i : ℕ) : Prop where
  sp : layout.sp k'.memory i = layout.sp k.memory i
  stack : k'.stackOf i = k.stackOf i
  memory : ∀ a, (k.stackOf i).Contains a → k'.memory a = k.memory a

variable {layout : Layout} {k k' k'' : System} {p n i j : ℕ} {m m' : Memory} {d ret : UInt64}

theorem Keeps.refl (layout : Layout) (k : System) (i : ℕ) : Keeps layout k k i := ⟨rfl, rfl, fun _ _ ↦ rfl⟩

theorem Keeps.trans (h : Keeps layout k k' i) (h' : Keeps layout k' k'' i) : Keeps layout k k'' i where
  sp := h'.sp.trans h.sp
  stack := h'.stack.trans h.stack
  memory a ha := (h'.memory a (h.stack ▸ ha)).trans (h.memory a ha)

theorem sp_congr (hi : i < maxTasks) (h : ∀ a, layout.InTable a → m' a = m a) : layout.sp m' i = layout.sp m i :=
  Memory.word_congr fun a hlow hhigh ↦ h a (by
    unfold Layout.spPlace at hlow hhigh
    unfold Layout.InTable
    omega)

/-- The frame of a task that is kept says the same. -/
theorem Keeps.frameContext (h : Keeps layout k k' i) (hlow : (k.stackOf i).bottom ≤ (layout.sp k.memory i).toNat)
    (hhigh : (layout.sp k.memory i).toNat + 56 ≤ (k.stackOf i).top) :
    frameContext k'.memory (layout.sp k'.memory i).toNat = frameContext k.memory (layout.sp k.memory i).toNat := by
  rw [h.sp]
  exact frameContext_congr fun a ha ha' ↦ h.memory a ⟨hlow.trans ha, Nat.lt_of_lt_of_le ha' hhigh⟩

/-! ## Giving up the processor -/

/-- The processor behind the call of `ctx_switch`. -/
structure Passed (c : Cpu) (o new ret : UInt64) (c' : Cpu) : Prop where
  pointer : c'.memory.word o.toNat = UInt64.ofNat (c.rsp - 56)
  parked : frameContext c'.memory (c.rsp - 56) = ⟨ret, c.rsp, calleeSaved.map c.registers⟩
  entered : contextOf c' = frameContext c'.memory new.toNat
  memory : ∀ a, a < c.rsp - 56 ∨ c.rsp ≤ a → a < o.toNat ∨ o.toNat + 8 ≤ a → c'.memory a = c.memory a

theorem switchTo_passed {c : Cpu} {o new ret : UInt64} (hroom : 56 ≤ c.rsp)
    (ho : o.toNat + 8 ≤ c.rsp - 56 ∨ c.rsp ≤ o.toNat) (hnew : new.toNat + 56 < 2 ^ 64) :
    Passed c o new ret (Layout.switchTo c o new ret) := by
  have hlt : c.rsp < 2 ^ 64 := (c.registers .rsp).toNat_lt
  have hsame (r : Register) (hdi : r ≠ .rdi) (hsi : r ≠ .rsi) :
      ((c.set .rdi o).set .rsi new).registers r = c.registers r :=
    (Cpu.registers_set_of_ne _ _ hsi).trans (Cpu.registers_set_of_ne _ _ hdi)
  have hrsp : ((c.set .rdi o).set .rsi new).rsp = c.rsp :=
    congrArg UInt64.toNat (hsame .rsp (by decide) (by decide))
  have hmemory : ((c.set .rdi o).set .rsi new).memory = c.memory := rfl
  have hrdi : ((c.set .rdi o).set .rsi new).registers .rdi = o :=
    (Cpu.registers_set_of_ne _ _ (by decide)).trans (Cpu.registers_set_self ..)
  have hrsi : ((c.set .rdi o).set .rsi new).registers .rsi = new := Cpu.registers_set_self ..
  unfold Layout.switchTo
  generalize (c.set .rdi o).set .rsi new = c₁ at hsame hrsp hmemory hrdi hrsi ⊢
  have hpush : (c₁.push ret).rsp = c.rsp - 8 := by rw [Cpu.rsp_push ret (by omega), hrsp]
  have hmemory' : (c₁.push ret).memory = c.memory.setWord (c.rsp - 8) ret := by
    rw [Cpu.memory_push ret (by omega), hmemory, hrsp]
  have hregister (r : Register) (hne : r ≠ .rsp) : (c₁.push ret).registers r = c₁.registers r :=
    Cpu.registers_push ret hne
  have hrdi' : (c₁.push ret).registers .rdi = o := (hregister .rdi (by decide)).trans hrdi
  have hrsi' : (c₁.push ret).registers .rsi = new := (hregister .rsi (by decide)).trans hrsi
  have hsaved : calleeSaved.map (c₁.push ret).registers = calleeSaved.map c.registers := by
    refine List.map_congr_left fun r hr ↦ ?_
    have hne : r ≠ .rsp ∧ r ≠ .rdi ∧ r ≠ .rsi := by
      revert hr r
      decide
    exact (hregister r hne.1).trans (hsame r hne.2.1 hne.2.2)
  have hswitch := ctxSwitch_switched (c := c₁.push ret)
    ⟨by omega, by omega, by rw [hrdi', hpush]; omega⟩ (by rw [hrsi']; exact hnew)
  have hframe : (c₁.push ret).rsp - 48 = c.rsp - 56 := by omega
  have hreturn : (c₁.push ret).memory.word (c₁.push ret).rsp = ret := by
    rw [hmemory', hpush, Memory.word_setWord]
  have hback : (c₁.push ret).rsp + 8 = c.rsp := by omega
  refine ⟨?_, ?_, ?_, fun a ha ha' ↦ ?_⟩
  · rw [← hframe, ← hrdi']
    exact hswitch.pointer
  · rw [← hframe, hswitch.left, hreturn, hback, hsaved]
  · rw [← hrsi']
    exact hswitch.entered
  · rw [hswitch.memory a (by omega) (by rw [hrdi']; exact ha'), hmemory', Memory.setWord_of_outside _ (by omega)]

/-- Where `ctx_switch` writes the stack pointer: to the entry of the task, or, when it has exited, to a
variable on its stack. -/
def Place (layout : Layout) (k : System) (p : ℕ) (o : UInt64) : Prop :=
  o.toNat = layout.spPlace p ∨
    (layout.sp k.memory p = 0 ∧ k.cpu.rsp ≤ o.toNat ∧ o.toNat + 8 ≤ (k.stackOf p).top)

/-- The processor has gone from the task in slot `p` to the one in slot `n`. -/
structure Handed (layout : Layout) (k k' : System) (p n : ℕ) : Prop where
  placed : Placed layout k' n
  live : Live layout k n
  ne : n ≠ p
  first : Rotation.Foremost maxTasks (layout.taken k.memory) p n
  entered : contextOf k'.cpu = frameContext k.memory (layout.sp k.memory n).toNat
  kept : ∀ i, Live layout k i → i ≠ p → Keeps layout k k' i
  others : ∀ i, i ≠ p → (Live layout k' i ↔ Live layout k i)

/-- The task in slot `p` can be resumed with the context that its call found. -/
structure Parked (layout : Layout) (k k' : System) (p : ℕ) (ret : UInt64) : Prop where
  live : Live layout k' p
  context : frameContext k'.memory (layout.sp k'.memory p).toNat =
    ⟨ret, k.cpu.rsp, calleeSaved.map k.cpu.registers⟩
  stack : k'.stackOf p = k.stackOf p
  memory : ∀ a, k.cpu.rsp ≤ a → a < (k.stackOf p).top → k'.memory a = k.memory a

section
variable {o : UInt64} (h : Placed layout k p) (hstack : OnStack k p)
  (hnext : layout.next k.memory p = some n) (ho : Place layout k p o)

def switched (layout : Layout) (k : System) (n : ℕ) (o ret : UInt64) : System :=
  { k with cpu := Layout.switchTo k.cpu o (layout.sp k.memory n) ret, cur := n }

include h hstack hnext ho

theorem switched_passed (ret : UInt64) :
    Passed k.cpu o (layout.sp k.memory n) ret (switched layout k n o ret).cpu := by
  obtain ⟨hn, hne, hlive, -⟩ := next_spec h.lt hnext
  have hframe := (h.frame n ⟨hn, hlive⟩ hne).2
  have htop := (h.stack n (Or.inl ⟨hn, hlive⟩)).top
  have hroom := hstack.room
  have hbelow := hstack.top
  have hlt := h.lt
  refine switchTo_passed (by omega) ?_ (by omega)
  rcases ho with hplace | hplace
  · have hapart := (h.stack p (Or.inr rfl)).apart
    have hmax : maxTasks = 6 := rfl
    rw [hplace]
    unfold Layout.spPlace
    omega
  · exact Or.inr hplace.2.1

/-- Bytes of other tasks and their entries are not written. -/
theorem memory_switched (ret : UInt64) {a : ℕ} (hout : ¬ (k.stackOf p).Contains a)
    (hentry : a < layout.spPlace p ∨ layout.spPlace p + 8 ≤ a) :
    (switched layout k n o ret).memory a = k.memory a := by
  have hroom := hstack.room
  have hbelow := hstack.top
  unfold Stack.Contains at hout
  refine (switched_passed h hstack hnext ho ret).memory a (by omega) ?_
  rcases ho with hplace | hplace
  · rw [hplace]
    exact hentry
  · omega

theorem sp_switched (ret : UInt64) (hi : i < maxTasks) (hne : i ≠ p) :
    layout.sp (switched layout k n o ret).memory i = layout.sp k.memory i := by
  have hapart := (h.stack p (Or.inr rfl)).apart
  have hmax : maxTasks = 6 := rfl
  have hlt := h.lt
  refine Memory.word_congr fun a hlow hhigh ↦ memory_switched h hstack hnext ho ret ?_ ?_
  all_goals
    unfold Layout.spPlace at *
    first
    | (unfold Stack.Contains; omega)
    | omega

theorem live_switched (ret : UInt64) (hne : i ≠ p) :
    Live layout (switched layout k n o ret) i ↔ Live layout k i := by
  unfold Live
  refine and_congr_right fun hi ↦ ?_
  rw [sp_switched h hstack hnext ho ret hi hne]

theorem keeps_switched (ret : UInt64) (hi : Live layout k i) (hne : i ≠ p) :
    Keeps layout k (switched layout k n o ret) i := by
  have hapart := h.apart i p (Or.inl hi) (Or.inr rfl) hne
  have htable := (h.stack i (Or.inl hi)).apart
  have hmax : maxTasks = 6 := rfl
  have hlt := h.lt
  refine ⟨sp_switched h hstack hnext ho ret hi.1 hne, rfl, fun a ha ↦ memory_switched h hstack hnext ho ret ?_ ?_⟩
  · unfold Stack.Apart at hapart
    unfold Stack.Contains at ha ⊢
    omega
  · unfold Stack.Contains at ha
    unfold Layout.spPlace
    omega

/-- An entry of a task that has exited stays free. -/
theorem sp_switched_self (ret : UInt64) (hplace : k.cpu.rsp ≤ o.toNat ∧ o.toNat + 8 ≤ (k.stackOf p).top) :
    layout.sp (switched layout k n o ret).memory p = layout.sp k.memory p := by
  have hapart := (h.stack p (Or.inr rfl)).apart
  have hmax : maxTasks = 6 := rfl
  have hlt := h.lt
  have hroom := hstack.room
  have hbelow := hstack.top
  refine Memory.word_congr fun a hlow hhigh ↦ (switched_passed h hstack hnext ho ret).memory a ?_ ?_
  all_goals
    unfold Layout.spPlace at hlow hhigh
    omega

theorem sp_parked (ret : UInt64) (hplace : o.toNat = layout.spPlace p) :
    (layout.sp (switched layout k n o ret).memory p).toNat = k.cpu.rsp - 56 := by
  have hsmall : k.cpu.rsp < 2 ^ 64 := (k.cpu.registers .rsp).toNat_lt
  unfold Layout.sp
  rw [← hplace]
  exact (congrArg UInt64.toNat (switched_passed h hstack hnext ho ret).pointer).trans
    (UInt64.toNat_ofNat_of_lt' (Nat.lt_of_le_of_lt (Nat.sub_le _ _) hsmall))

theorem switched_handed (ret : UInt64) :
    Handed layout k (switched layout k n o ret) p n := by
  obtain ⟨hn, hne, hlive, hfirst⟩ := next_spec h.lt hnext
  have hothers (i : ℕ) (hi : i ≠ p) := live_switched h hstack hnext ho ret (i := i) hi
  have hpassed := switched_passed h hstack hnext ho ret
  have hkept := keeps_switched h hstack hnext ho ret ⟨hn, hlive⟩ hne
  have huses (i : ℕ) (hi : Live layout (switched layout k n o ret) i ∨ i = n) : Live layout k i ∨ i = p := by
    by_cases hip : i = p
    · exact Or.inr hip
    · rcases hi with hi | rfl
      · exact Or.inl ((hothers i hip).mp hi)
      · exact Or.inl ⟨hn, hlive⟩
  refine ⟨⟨rfl, hn, fun i hi hin ↦ ?_, fun i hi ↦ h.stack i (huses i hi), fun i j hi hj ↦
    h.apart i j (huses i hi) (huses j hj)⟩, ⟨hn, hlive⟩, hne, hfirst, ?_, fun i ↦
    keeps_switched h hstack hnext ho ret, hothers⟩
  · by_cases hip : i = p
    · subst hip
      rcases ho with hplace | hplace
      · have hroom := hstack.room
        have hbelow := hstack.top
        rw [sp_parked h hstack hnext (Or.inl hplace) ret hplace]
        change (k.stackOf i).bottom ≤ k.cpu.rsp - 56 ∧ k.cpu.rsp - 56 + 56 ≤ (k.stackOf i).top
        omega
      · have hfree := sp_switched_self h hstack hnext (Or.inr hplace) ret hplace.2
        exact absurd (hfree.trans hplace.1) hi.2
    · rw [sp_switched h hstack hnext ho ret hi.1 hip]
      exact h.frame i ((hothers i hip).mp hi) hip
  · have hframe := h.frame n ⟨hn, hlive⟩ hne
    rw [← hkept.frameContext hframe.1 hframe.2, hkept.sp]
    exact hpassed.entered

omit ho in
theorem switched_parked (hplace : o.toNat = layout.spPlace p) (ret : UInt64) :
    Parked layout k (switched layout k n o ret) p ret := by
  have hpassed := switched_passed h hstack hnext (Or.inl hplace) ret
  have hsp := sp_parked h hstack hnext (Or.inl hplace) ret hplace
  have hroom := hstack.room
  have hbottom := (h.stack p (Or.inr rfl)).bottom
  have htable := (h.stack p (Or.inr rfl)).apart
  have hmax : maxTasks = 6 := rfl
  have hlt := h.lt
  refine ⟨⟨hlt, fun hzero ↦ ?_⟩, ?_, rfl, fun a hlow hhigh ↦ hpassed.memory a (Or.inr hlow) ?_⟩
  · rw [hzero] at hsp
    have hzero' : (0 : UInt64).toNat = 0 := rfl
    omega
  · rw [hsp]
    exact hpassed.parked
  · rw [hplace]
    unfold Layout.spPlace
    omega

end

/-! ## Steps -/

/-- What the running task may do: its own code leaves the array and the other stacks alone, a new task gets a
stack of its own, and there is room for a frame when the processor is given up. -/
def Permitted (layout : Layout) (k : System) (p : ℕ) : Event → Prop
  | .compute cpu => ∀ a, layout.InTable a ∨ (∃ i, Live layout k i ∧ i ≠ p ∧ (k.stackOf i).Contains a) →
      cpu.memory a = k.memory a
  | .create _ stack => 64 ≤ stack.size ∧ stack.Proper layout ∧
      ∀ i, Live layout k i → stack.Apart (k.stackOf i)
  | .yield _ _ => OnStack k p
  | .exit d _ => OnStack k p ∧ k.cpu.rsp ≤ d.toNat ∧ d.toNat + 8 ≤ (k.stackOf p).top

/-- A step from the task in slot `p` to the one in slot `q`. -/
structure Advances (layout : Layout) (k k' : System) (p q : ℕ) : Prop where
  placed : Placed layout k' q
  live : Live layout k' q
  kept : ∀ i, Live layout k i → i ≠ p → Keeps layout k k' i
  turn : q ≠ p → Live layout k q ∧ Rotation.Foremost maxTasks (layout.taken k.memory) p q ∧
    contextOf k'.cpu = frameContext k.memory (layout.sp k.memory q).toNat

theorem toNat_spPlace (layout : Layout) (hi : i < maxTasks) :
    (UInt64.ofNat (layout.spPlace i)).toNat = layout.spPlace i := by
  have hbounded := layout.bounded
  refine UInt64.toNat_ofNat_of_lt' ?_
  change layout.spPlace i < 2 ^ 64
  unfold Layout.spPlace
  omega

theorem yield_eq (h : Placed layout k p) (d ret : UInt64) :
    layout.yield d ret k = (layout.next k.memory p).map fun n ↦
      switched layout k n (if layout.sp k.memory p = 0 then d else UInt64.ofNat (layout.spPlace p)) ret := by
  have hcur : k.cur ≠ -1 := by
    rw [h.cur]
    omega
  have hnat : k.cur.toNat = p := by
    rw [h.cur]
    rfl
  unfold Layout.yield
  rw [if_neg hcur, hnat]
  rfl

theorem yield_of_live (h : Placed layout k p) (hlive : Live layout k p) (d ret : UInt64) :
    layout.yield d ret k = (layout.next k.memory p).map fun n ↦
      switched layout k n (UInt64.ofNat (layout.spPlace p)) ret := by
  rw [yield_eq h, if_neg hlive.2]

theorem Handed.advances (h : Handed layout k k' p n) : Advances layout k k' p n :=
  ⟨h.placed, (h.others n h.ne).mpr h.live, h.kept, fun _ ↦ ⟨h.live, h.first, h.entered⟩⟩

theorem yield_advances (h : Placed layout k p) (hlive : Live layout k p) (hstack : OnStack k p) (d ret : UInt64) :
    ∃ q, Advances layout k (step layout k (.yield d ret)) p q := by
  rw [step_yield, yield_of_live h hlive]
  cases hnext : layout.next k.memory p with
  | none => exact ⟨p, h, hlive, fun i _ _ ↦ Keeps.refl layout k i, fun hne ↦ absurd rfl hne⟩
  | some n => exact ⟨n, (switched_handed h hstack hnext (Or.inl (toNat_spPlace layout h.lt)) ret).advances⟩

/-! ### Code of the task -/

theorem compute_advances (h : Placed layout k p) (hlive : Live layout k p) {cpu : Cpu}
    (hpermitted : Permitted layout k p (.compute cpu)) : Advances layout k (step layout k (.compute cpu)) p p := by
  have hsp (i : ℕ) (hi : i < maxTasks) : layout.sp cpu.memory i = layout.sp k.memory i :=
    sp_congr hi fun a ha ↦ hpermitted a (Or.inl ha)
  have hsame (i : ℕ) : Live layout (step layout k (.compute cpu)) i ↔ Live layout k i :=
    and_congr_right fun hi ↦ not_congr (by rw [← hsp i hi]; rfl)
  refine ⟨⟨h.cur, h.lt, fun i hi hne ↦ ?_, fun i hi ↦ h.stack i (hi.imp_left (hsame i).mp), fun i j hi hj ↦
    h.apart i j (hi.imp_left (hsame i).mp) (hj.imp_left (hsame j).mp)⟩, (hsame p).mpr hlive, fun i hi hne ↦
    ⟨hsp i hi.1, rfl, fun a ha ↦ hpermitted a (Or.inr ⟨i, hi, hne, ha⟩)⟩, fun hne ↦ absurd rfl hne⟩
  have hframe := h.frame i ((hsame i).mp hi) hne
  rw [← hsp i hi.1] at hframe
  exact hframe

/-! ### New tasks -/

theorem sp_of_freeSlot {fn : UInt64} (h : layout.freeSlot m fn = some n) : n < maxTasks ∧ layout.sp m n = 0 := by
  unfold Layout.freeSlot at h
  rw [Option.or_eq_some_iff] at h
  rcases h with h | ⟨-, h⟩
  · have hfree := List.find?_some h
    have hmem := List.mem_of_find?_eq_some h
    rw [Bool.and_eq_true, beq_iff_eq] at hfree
    exact ⟨List.mem_range.mp hmem, hfree.1⟩
  · have hfree := List.find?_some h
    have hmem := List.mem_of_find?_eq_some h
    exact ⟨List.mem_range.mp hmem, beq_iff_eq.mp hfree⟩

/-- What `task_create` writes. -/
structure Founded (layout : Layout) (m m' : Memory) (n top : ℕ) (fn : UInt64) : Prop where
  sp : layout.sp m' n = UInt64.ofNat (top - 64)
  entry : layout.entry m' n = fn
  context : frameContext m' (top - 64) = ⟨layout.taskBootstrap, top - 8, [0, 0, 0, 0, 0, 0]⟩
  memory : ∀ a, a < top - 64 ∨ top ≤ a → a < layout.spPlace n ∨ layout.spPlace n + 16 ≤ a → m' a = m a

/-- Zeros pushed from `b` downwards. -/
theorem foldl_setWord_zero (m : Memory) {b n : ℕ} (hroom : 8 * n ≤ b + 8) :
    (∀ i < n, ((List.range n).foldl (fun m i ↦ m.setWord (b - 8 * i) 0) m).word (b - 8 * i) = 0) ∧
      ∀ a, a < b + 8 - 8 * n ∨ b + 8 ≤ a →
        (List.range n).foldl (fun m i ↦ m.setWord (b - 8 * i) 0) m a = m a := by
  induction n with
  | zero => exact ⟨nofun, fun _ _ ↦ rfl⟩
  | succ n ih =>
    obtain ⟨hzero, hrest⟩ := ih (by omega)
    rw [List.range_succ, List.foldl_append, List.foldl_cons, List.foldl_nil]
    refine ⟨fun i hi ↦ ?_, fun a ha ↦ ?_⟩
    · by_cases hin : i = n
      · rw [hin, Memory.word_setWord]
      · rw [Memory.word_setWord_of_apart _ (by omega)]
        exact hzero i (by omega)
    · rw [Memory.setWord_of_outside _ (by omega)]
      exact hrest a (by omega)

theorem firstFrame_context (layout : Layout) (m : Memory) {top : ℕ} (htop : 64 ≤ top) :
    frameContext (layout.firstFrame m top) (top - 64) = ⟨layout.taskBootstrap, top - 8, [0, 0, 0, 0, 0, 0]⟩ := by
  obtain ⟨hzero, hrest⟩ := foldl_setWord_zero (n := 6)
    ((m.setWord (top - 8) 0).setWord (top - 16) layout.taskBootstrap) (b := top - 24) (by omega)
  have hword (i : ℕ) (hi : i < 6) : (layout.firstFrame m top).word (top - 64 + 8 * (5 - i)) = 0 := by
    have hplace : top - 64 + 8 * (5 - i) = top - 24 - 8 * i := by omega
    rw [hplace]
    exact hzero i hi
  have hlast : (layout.firstFrame m top).word (top - 64) = 0 := hword 5 (by decide)
  have hbootstrap : (layout.firstFrame m top).word (top - 64 + 48) = layout.taskBootstrap := by
    have hplace : top - 64 + 48 = top - 16 := by omega
    rw [hplace, ← Memory.word_setWord (m.setWord (top - 8) 0) (top - 16) layout.taskBootstrap]
    exact Memory.word_congr fun a _ _ ↦ hrest a (by omega)
  refine Context.ext hbootstrap ?_ ?_
  · change top - 64 + 56 = top - 8
    omega
  · change [_, _, _, _, _, _] = [_, _, _, _, _, _]
    rw [hword 0 (by decide), hword 1 (by decide), hword 2 (by decide), hword 3 (by decide), hword 4 (by decide),
      hlast]

theorem firstFrame_of_outside (m : Memory) {top a : ℕ} (htop : 64 ≤ top) (ha : a < top - 64 ∨ top ≤ a) :
    layout.firstFrame m top a = m a := by
  obtain ⟨-, hrest⟩ := foldl_setWord_zero (n := 6)
    ((m.setWord (top - 8) 0).setWord (top - 16) layout.taskBootstrap) (b := top - 24) (by omega)
  refine (hrest a (by omega)).trans ?_
  rw [Memory.setWord_of_outside _ (by omega), Memory.setWord_of_outside _ (by omega)]

/-- The memory that `task_create` leaves. -/
def founded (layout : Layout) (m : Memory) (n top : ℕ) (fn : UInt64) : Memory :=
  ((layout.firstFrame m top).setWord (layout.spPlace n) (UInt64.ofNat (top - 64))).setWord (layout.entryPlace n) fn

theorem founded_spec (layout : Layout) (m : Memory) (n top : ℕ) (fn : UInt64) (htop : 64 ≤ top)
    (hapart : top ≤ layout.spPlace n ∨ layout.spPlace n + 16 ≤ top - 64) :
    Founded layout m (founded layout m n top fn) n top fn := by
  have hentry : layout.entryPlace n = layout.spPlace n + 8 := rfl
  unfold founded
  refine ⟨?_, Memory.word_setWord _ _ _, ?_, fun a ha ha' ↦ ?_⟩
  · unfold Layout.sp
    rw [Memory.word_setWord_of_apart _ (by omega), Memory.word_setWord]
  · rw [← firstFrame_context layout m htop]
    refine frameContext_congr fun a hlow hhigh ↦ ?_
    rw [Memory.setWord_of_outside _ (by omega), Memory.setWord_of_outside _ (by omega)]
  · rw [Memory.setWord_of_outside _ (by omega), Memory.setWord_of_outside _ (by omega)]
    exact firstFrame_of_outside m htop ha

theorem taskCreate_of_some {fn : UInt64} {stack : Stack} (h : layout.freeSlot k.memory fn = some n) :
    layout.taskCreate fn stack k = { k with
      cpu := { k.cpu with memory := founded layout k.memory n stack.top fn }
      stackOf := Function.update k.stackOf n stack } := by
  unfold Layout.taskCreate
  rw [h]
  rfl

theorem taskCreate_of_none {fn : UInt64} {stack : Stack} (h : layout.freeSlot k.memory fn = none) :
    layout.taskCreate fn stack k = { k with refused := true } := by
  unfold Layout.taskCreate
  rw [h]

/-- A task has been put into slot `n`. -/
structure Created (layout : Layout) (k k' : System) (n : ℕ) (fn : UInt64) (stack : Stack) : Prop where
  lt : n < maxTasks
  free : layout.sp k.memory n = 0
  sp : (layout.sp k'.memory n).toNat = stack.top - 64
  entry : layout.entry k'.memory n = fn
  context : frameContext k'.memory (stack.top - 64) = ⟨layout.taskBootstrap, stack.top - 8, [0, 0, 0, 0, 0, 0]⟩
  others : ∀ i < maxTasks, i ≠ n → layout.sp k'.memory i = layout.sp k.memory i
  entries : ∀ i < maxTasks, i ≠ n → layout.entry k'.memory i = layout.entry k.memory i
  memory : ∀ a, ¬ stack.Contains a → ¬ layout.InTable a → k'.memory a = k.memory a
  registers : k'.cpu.registers = k.cpu.registers
  cur : k'.cur = k.cur
  flags : k'.refused = k.refused ∧ k'.halted = k.halted
  stackOf : k'.stackOf = Function.update k.stackOf n stack

theorem taskCreate_created {fn : UInt64} {stack : Stack} (hslot : layout.freeSlot k.memory fn = some n)
    (hsize : 64 ≤ stack.size) (hproper : stack.Proper layout) :
    Created layout k (layout.taskCreate fn stack k) n fn stack := by
  obtain ⟨hn, hfree⟩ := sp_of_freeSlot hslot
  have htop : stack.top = stack.bottom + stack.size := rfl
  have hbelow := hproper.top
  have hapart := hproper.apart
  have hmax : maxTasks = 6 := rfl
  have hplace (i : ℕ) : layout.spPlace i = layout.tasks + 16 * i := rfl
  have hn' := hplace n
  have hfounded := founded_spec layout k.memory n stack.top fn (by omega) (by omega)
  rw [taskCreate_of_some hslot]
  refine ⟨hn, hfree, ?_, hfounded.entry, hfounded.context, fun i hi hne ↦ ?_, fun i hi hne ↦ ?_,
    fun a hstack htable ↦ ?_, rfl, rfl, ⟨rfl, rfl⟩, rfl⟩
  · exact (congrArg UInt64.toNat hfounded.sp).trans
      (UInt64.toNat_ofNat_of_lt' (Nat.lt_of_le_of_lt (Nat.sub_le _ _) hbelow))
  · have hi' := hplace i
    exact Memory.word_congr fun a _ _ ↦ hfounded.memory a (by omega) (by omega)
  · have hi' : layout.entryPlace i = layout.tasks + 16 * i + 8 := rfl
    exact Memory.word_congr fun a _ _ ↦ hfounded.memory a (by omega) (by omega)
  · unfold Stack.Contains at hstack
    unfold Layout.InTable at htable
    exact hfounded.memory a (by omega) (by omega)

theorem create_advances (h : Placed layout k p) (hlive : Live layout k p) {fn : UInt64} {stack : Stack}
    (hpermitted : Permitted layout k p (.create fn stack)) :
    Advances layout k (step layout k (.create fn stack)) p p := by
  obtain ⟨hsize, hproper, hapart⟩ := hpermitted
  rw [step_create]
  cases hslot : layout.freeSlot k.memory fn with
  | none =>
    rw [taskCreate_of_none hslot]
    exact ⟨⟨h.cur, h.lt, h.frame, h.stack, h.apart⟩, hlive, fun i _ _ ↦ ⟨rfl, rfl, fun _ _ ↦ rfl⟩,
      fun hne ↦ absurd rfl hne⟩
  | some n =>
    have hcreated := taskCreate_created hslot hsize hproper
    generalize layout.taskCreate fn stack k = k' at hcreated ⊢
    have hstacks := hcreated.stackOf
    have hnp : n ≠ p := by
      rintro rfl
      exact hlive.2 hcreated.free
    have hold (i : ℕ) (hi : Live layout k' i ∨ i = p) (hin : i ≠ n) : Live layout k i := by
      rcases hi with hi | rfl
      · exact ⟨hi.1, by rw [← hcreated.others i hi.1 hin]; exact hi.2⟩
      · exact hlive
    have hnew (i : ℕ) (hi : Live layout k i) : i ≠ n := by
      rintro rfl
      exact hi.2 hcreated.free
    have htop : stack.top = stack.bottom + stack.size := rfl
    refine ⟨⟨hcreated.cur.trans h.cur, h.lt, fun i hi hne ↦ ?_, fun i hi ↦ ?_, fun i j hi hj hij ↦ ?_⟩, ?_,
      fun i hi hne ↦ ⟨hcreated.others i hi.1 (hnew i hi), ?_, fun a ha ↦ ?_⟩, fun hne ↦ absurd rfl hne⟩
    · rw [hstacks]
      by_cases hin : i = n
      · rw [hin, Function.update_self, hcreated.sp]
        omega
      · rw [Function.update_of_ne hin, hcreated.others i hi.1 hin]
        exact h.frame i (hold i (Or.inl hi) hin) hne
    · rw [hstacks]
      by_cases hin : i = n
      · rw [hin, Function.update_self]
        exact hproper
      · rw [Function.update_of_ne hin]
        exact h.stack i (Or.inl (hold i hi hin))
    · rw [hstacks]
      by_cases hin : i = n
      · have hjn : j ≠ n := fun hjn ↦ hij (hin.trans hjn.symm)
        rw [hin, Function.update_self, Function.update_of_ne hjn]
        exact hapart j (hold j hj hjn)
      · rw [Function.update_of_ne hin]
        by_cases hjn : j = n
        · rw [hjn, Function.update_self]
          exact (hapart i (hold i hi hin)).symm
        · rw [Function.update_of_ne hjn]
          exact h.apart i j (Or.inl (hold i hi hin)) (Or.inl (hold j hj hjn)) hij
    · exact ⟨h.lt, by rw [hcreated.others p h.lt hnp.symm]; exact hlive.2⟩
    · rw [hstacks, Function.update_of_ne (hnew i hi)]
    · have hi' := hapart i hi
      have hproper' := (h.stack i (Or.inl hi)).apart
      unfold Stack.Apart at hi'
      unfold Stack.Contains at ha
      refine hcreated.memory a ?_ ?_
      · unfold Stack.Contains
        omega
      · unfold Layout.InTable
        omega

/-! ### Exit -/

theorem clearSp_eq (h : Placed layout k p) :
    layout.clearSp k = { k with cpu := { k.cpu with memory := k.memory.setWord (layout.spPlace p) 0 } } := by
  have hcur : k.cur ≠ -1 := by
    rw [h.cur]
    omega
  have hnat : k.cur.toNat = p := by
    rw [h.cur]
    rfl
  unfold Layout.clearSp
  rw [if_neg hcur, hnat]

/-- The entry of the running task is cleared, and nothing else changes. -/
theorem clearSp_spec (h : Placed layout k p) :
    Placed layout (layout.clearSp k) p ∧ layout.sp (layout.clearSp k).memory p = 0 ∧
      (∀ i < maxTasks, i ≠ p → layout.sp (layout.clearSp k).memory i = layout.sp k.memory i) ∧
      ∀ i, Live layout k i → i ≠ p → Keeps layout k (layout.clearSp k) i := by
  have hmax : maxTasks = 6 := rfl
  have hlt := h.lt
  rw [clearSp_eq h]
  have hzero : layout.sp (k.memory.setWord (layout.spPlace p) 0) p = 0 := Memory.word_setWord _ _ _
  have hsp (i : ℕ) (hi : i < maxTasks) (hne : i ≠ p) :
      layout.sp (k.memory.setWord (layout.spPlace p) 0) i = layout.sp k.memory i :=
    Memory.word_setWord_of_apart _ (by unfold Layout.spPlace; omega)
  have hold (i : ℕ) (hi : Live layout { k with
      cpu := { k.cpu with memory := k.memory.setWord (layout.spPlace p) 0 } } i) : i ≠ p ∧ Live layout k i := by
    have hne : i ≠ p := by
      rintro rfl
      exact hi.2 hzero
    exact ⟨hne, hi.1, by rw [← hsp i hi.1 hne]; exact hi.2⟩
  refine ⟨⟨h.cur, h.lt, fun i hi hne ↦ ?_, fun i hi ↦ h.stack i (hi.imp_left fun hi ↦ (hold i hi).2), fun i j hi hj ↦
    h.apart i j (hi.imp_left fun hi ↦ (hold i hi).2) (hj.imp_left fun hj ↦ (hold j hj).2)⟩, hzero, hsp,
    fun i hi hne ↦ ⟨hsp i hi.1 hne, rfl, fun a ha ↦ ?_⟩⟩
  · have hframe := h.frame i (hold i hi).2 hne
    rw [← hsp i hi.1 hne] at hframe
    exact hframe
  · have htable := (h.stack i (Or.inl hi)).apart
    unfold Stack.Contains at ha
    refine Memory.setWord_of_outside _ ?_
    unfold Layout.spPlace
    omega

/-- A task that exits has room for its last frame. -/
theorem clearSp_ready (h : Placed layout k p) {d ret : UInt64} (hpermitted : Permitted layout k p (.exit d ret)) :
    OnStack (layout.clearSp k) p ∧ Place layout (layout.clearSp k) p
      (if layout.sp (layout.clearSp k).memory p = 0 then d else UInt64.ofNat (layout.spPlace p)) := by
  obtain ⟨-, hzero, -, -⟩ := clearSp_spec h
  have hsame : (layout.clearSp k).stackOf = k.stackOf ∧ (layout.clearSp k).cpu.rsp = k.cpu.rsp := by
    rw [clearSp_eq h]
    exact ⟨rfl, rfl⟩
  rw [if_pos hzero]
  refine ⟨⟨?_, ?_⟩, Or.inr ⟨hzero, ?_⟩⟩
  · rw [hsame.1, hsame.2]
    exact hpermitted.1.room
  · rw [hsame.1, hsame.2]
    exact hpermitted.1.top
  · rw [hsame.1, hsame.2]
    exact hpermitted.2

theorem exit_advances (h : Placed layout k p) {d ret : UInt64} (hpermitted : Permitted layout k p (.exit d ret))
    (hruns : (step layout k (.exit d ret)).halted = false) :
    ∃ q, q ≠ p ∧ Advances layout k (step layout k (.exit d ret)) p q := by
  obtain ⟨hplaced, hzero, hsp, hkept⟩ := clearSp_spec h
  rw [step_exit] at hruns ⊢
  unfold Layout.sysExitTask at hruns ⊢
  rw [yield_eq hplaced] at hruns ⊢
  cases hnext : layout.next (layout.clearSp k).memory p with
  | none =>
    rw [hnext] at hruns
    cases hruns
  | some n =>
    obtain ⟨hstack, hplace⟩ := clearSp_ready h hpermitted
    have hhanded := switched_handed hplaced hstack hnext hplace ret
    have hlive (i : ℕ) (hne : i ≠ p) : Live layout (layout.clearSp k) i ↔ Live layout k i :=
      and_congr_right fun hi ↦ by rw [hsp i hi hne]
    refine ⟨n, hhanded.ne, hhanded.placed, (hhanded.others n hhanded.ne).mpr hhanded.live, fun i hi hne ↦
      (hkept i hi hne).trans (hhanded.kept i ((hlive i hne).mpr hi) hne), fun hne ↦ ?_⟩
    have hn := (hlive n hne).mp hhanded.live
    have hframe := h.frame n hn hne
    refine ⟨hn, fun i hi hip hready ↦ hhanded.first i hi hip ?_, ?_⟩
    · rw [taken_iff, hsp i hi hip]
      exact taken_iff.mp hready
    · rw [← (hkept n hn hne).frameContext hframe.1 hframe.2]
      exact hhanded.entered

/-- Every step keeps the tasks that do not run as they are, and enters one of them, if any, by its frame. -/
theorem step_advances (h : Placed layout k p) (hlive : Live layout k p) {e : Event}
    (hpermitted : Permitted layout k p e) (hruns : (step layout k e).halted = false) :
    ∃ q, Advances layout k (step layout k e) p q := by
  cases e with
  | compute cpu => exact ⟨p, compute_advances h hlive hpermitted⟩
  | create fn stack => exact ⟨p, create_advances h hlive hpermitted⟩
  | yield d ret => exact yield_advances h hlive hpermitted d ret
  | exit d ret =>
    obtain ⟨q, -, hadvances⟩ := exit_advances h hpermitted hruns
    exact ⟨q, hadvances⟩

end JordyOS.Kernel
