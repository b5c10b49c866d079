import JordyOS.Isolation.Checked

/-!
# The calls that draw, among all calls

The model of the screen serves the drawing calls alone, on a terminal and a string read at once.  The services of
`syscall` that draw, which copy the string byte by byte to a buffer of the kernel, give the same answers and leave the
same terminal.
-/

namespace JordyOS.Isolation

open Machine

variable {ν : Type} {platform : Platform ν} {process : Process} {k : Kernel ν} {w : World ν} {room left i : ℕ}
  {source : UInt64} {text name out : Memory} {halt : Halt → World ν → Prop} {f : InterruptFrame} {call : Gui.Call}

/-- The drawing call that the registers ask for. -/
def InterruptFrame.drawing (f : InterruptFrame) : Option Gui.Call :=
  match Usys.ofNumber f.rax with
  | some .write => some (.write f.rdi)
  | some .clear => some .clear
  | some .paint => some (.paint f.rdi f.rsi f.rdx f.rcx f.r8)
  | some .drawtext => some (.drawtext f.rdi f.rsi f.rdx f.rcx)
  | some .terminal => some (.terminal f.rdi)
  | _ => none

/-- How far the copy of a string has come when it ends: the kernel and user memory are as before, and the buffer holds
the string. -/
structure Copied (process : Process) (source : UInt64) (room left i : ℕ) (out : Memory) (w : World ν)
    (result : Option Memory) (w' : World ν) : Prop where
  kernel : w'.kernel = w.kernel
  memory : w'.memory = w.memory
  rejected : result = none → Gui.userString process w.memory source left i = reject
  accepted : ∀ m, result = some m → ∃ s, Gui.userString process w.memory source left i = .ok s ∧
    m.strlen room = some (i + s.length) ∧ m.bytes (i + s.length) = out.bytes i ++ s

theorem bytes_set (out : Memory) (i : ℕ) (byte : UInt8) : (out.set i byte).bytes i = out.bytes i :=
  Memory.bytes_eq_bytes_iff.mpr ⟨rfl, fun _ hj ↦ Memory.set_of_ne _ _ hj.ne⟩

theorem bytes_set_succ (out : Memory) (i : ℕ) (byte : UInt8) :
    (out.set i byte).bytes (i + 1) = out.bytes i ++ [byte] := by
  rw [← bytes_set out i byte]
  unfold Memory.bytes
  rw [List.range_succ, List.map_append, List.map_singleton, Memory.set_self]

theorem load_returns (a : UInt64) (w : World ν) : Returns (load a) w (w.memory a) (w.note ⟨false, a⟩) := rfl

/-- The string is copied as it is read. -/
theorem userString_copies (source : UInt64) (hroom : i + left ≤ room) (hout : ∀ j < i, out j ≠ 0) (w : World ν) :
    Ensures (userString process source room left i out) w (Copied process source room left i out w) halt := by
  induction left generalizing i out w with
  | zero => exact Ensures.pure ⟨rfl, rfl, fun _ ↦ rfl, nofun⟩
  | succ left ih =>
    refine Ensures.ite (fun hwrap ↦ Ensures.pure ⟨rfl, rfl, fun _ ↦ ?_, nofun⟩) fun hwrap ↦ ?_
    · rw [Gui.userString, if_pos hwrap]
    have hone : (1 : UInt64) ≠ 0 := by decide
    obtain ⟨readable, hanswer, -⟩ := userRange_leaf process (source + UInt64.ofNat i) false hone
    refine (ofOption_returns hanswer w).andThen ?_
    refine Ensures.ite (fun hreadable ↦ ?_) fun hreadable ↦ Ensures.pure ⟨rfl, rfl, fun _ ↦ ?_, nofun⟩
    · refine (load_returns _ w).andThen ((put_returns out (by omega : i < room) _ _).andThen ?_)
      refine Ensures.ite (fun hzero ↦ Ensures.pure ⟨rfl, rfl, nofun, ?_⟩) fun hzero ↦ ?_
      · intro m hm
        obtain rfl := Option.some.inj hm
        have hstrlen : (out.set i (w.memory (source + UInt64.ofNat i))).strlen room = some i := by
          refine Memory.terminator_eq_some.mpr ⟨(Memory.set_self out i _).trans hzero, by omega, fun j hj ↦ ?_⟩
          rw [Memory.set_of_ne _ _ hj.ne]
          exact hout j hj
        refine ⟨[], ?_, hstrlen, (bytes_set out i _).trans (List.append_nil _).symm⟩
        rw [Gui.userString, if_neg hwrap, hanswer, hreadable]
        exact if_pos hzero
      · have hread : Gui.userString process w.memory source (left + 1) i =
            (Gui.userString process w.memory source left (i + 1)).bind fun rest ↦
              .ok (w.memory (source + UInt64.ofNat i) :: rest) := by
          rw [Gui.userString, if_neg hwrap, hanswer, hreadable]
          exact if_neg hzero
        have hnonzero : ∀ j < i + 1, (out.set i (w.memory (source + UInt64.ofNat i))) j ≠ 0 := by
          intro j hj
          by_cases hlast : j = i
          · rw [hlast, Memory.set_self]
            exact hzero
          · rw [Memory.set_of_ne _ _ hlast]
            exact hout j (by omega)
        refine (ih (by omega) hnonzero _).mono ?_ fun _ _ h ↦ h
        rintro result w' ⟨hkernel, hmemory, hrejected, haccepted⟩
        refine ⟨hkernel, hmemory, fun hresult ↦ ?_, fun m hm ↦ ?_⟩
        · rw [hread]
          exact congrArg (Except.bind · _) (hrejected hresult)
        · obtain ⟨s, hs, hstrlen, hbytes⟩ := haccepted m hm
          have hlength : i + (w.memory (source + UInt64.ofNat i) :: s).length = i + 1 + s.length := by
            rw [List.length_cons]
            omega
          refine ⟨w.memory (source + UInt64.ofNat i) :: s, ?_, hlength ▸ hstrlen, ?_⟩
          · rw [hread]
            exact congrArg (Except.bind · _) hs
          · rw [hlength, hbytes, bytes_set_succ, List.append_assoc, List.singleton_append]
    · rw [Gui.userString, if_neg hwrap, hanswer, Bool.eq_false_iff.mpr hreadable]

/-! ## The services -/

/-- A service that ends as the drawing call does. -/
structure Draws (platform : Platform ν) (process : Process) (call : Gui.Call) (w : World ν) (x : Service ν ℤ) :
    Prop where
  ensures : Ensures x w
    (fun n w' ↦ n = 0 ∧ Gui.syscall platform.font process w.memory w.kernel.terminal call = .ok w'.kernel.terminal)
    (fun halt w' ↦ halt = .rejected ∧ w'.kernel = w.kernel ∧
      Gui.syscall platform.font process w.memory w.kernel.terminal call = reject)

/-- A rejection that the drawing call shares. -/
theorem Draws.rejected (h : Gui.syscall platform.font process w.memory w.kernel.terminal call = reject) :
    Draws platform process call w (throw .rejected) := ⟨Ensures.throw ⟨rfl, rfl, h⟩⟩

/-- What is drawn by a call that is not rejected. -/
theorem Draws.accepted {f : Gui.Terminal → Scan Gui.Terminal}
    (hf : ∃ t, f w.kernel.terminal = .ok t)
    (h : Gui.syscall platform.font process w.memory w.kernel.terminal call = f w.kernel.terminal) :
    Draws platform process call w (do
      draw f
      pure 0) := by
  obtain ⟨t, ht⟩ := hf
  exact ⟨(draw_returns ht).andThen (Ensures.pure ⟨rfl, h.trans ht⟩)⟩

/-- The services that draw with a string. -/
theorem Draws.string {f : List UInt8 → Gui.Terminal → Scan Gui.Terminal} (hroom : left ≤ textSize)
    (hf : ∀ s, ∃ t, f s w.kernel.terminal = .ok t)
    (h : Gui.syscall platform.font process w.memory w.kernel.terminal call =
      (Gui.userString process w.memory source left 0).bind fun s ↦ f s w.kernel.terminal) :
    Draws platform process call w (do
      let some text ← userString process source textSize left 0 text | throw .rejected
      let s ← stringIn textSize text
      draw (f s)
      pure 0) := by
  refine ⟨Ensures.andThen (userString_copies source (by omega : 0 + left ≤ textSize) (fun j hj ↦ ?_) w) ?_⟩
  · exact absurd hj (Nat.not_lt_zero j)
  rintro result w' ⟨hkernel, -, hrejected, haccepted⟩
  cases result with
  | none => exact Ensures.throw ⟨rfl, hkernel, h.trans (congrArg (Except.bind · _) (hrejected rfl))⟩
  | some m =>
    obtain ⟨s, hs, hstrlen, hbytes⟩ := haccepted m rfl
    have hstring : m.bytes (0 + s.length) = s := hbytes.trans (List.nil_append s)
    obtain ⟨t, ht⟩ := hf s
    refine (stringIn_returns hstrlen w').andThen ?_
    rw [hstring]
    refine (draw_returns (hkernel ▸ ht)).andThen (Ensures.pure ⟨rfl, ?_⟩)
    exact h.trans ((congrArg (Except.bind · _) hs).trans ht)

/-- The switch runs the service of the drawing call, which is rejected or draws as the call does. -/
theorem switch_draws (platform : Platform ν) (process : Process) (text name : Memory) (hw : w.kernel.terminal.Fits)
    (hdrawing : f.drawing = some call) : Draws platform process call w (switch platform process text name f) := by
  unfold InterruptFrame.drawing at hdrawing
  unfold switch
  cases hnumber : Usys.ofNumber f.rax with
  | none =>
    rw [hnumber] at hdrawing
    cases hdrawing
  | some number =>
    rw [hnumber] at hdrawing
    cases number with
    | write =>
      obtain rfl := Option.some.inj hdrawing
      exact Draws.string (Nat.le_refl _) (fun s ↦ (Gui.puts_fits _ hw s).imp fun _ h ↦ h.1) (by rw [textSize_eq]; rfl)
    | clear =>
      obtain rfl := Option.some.inj hdrawing
      exact Draws.accepted ((Gui.guiClear_fits platform.font hw.title).imp fun _ h ↦ h.1) rfl
    | paint =>
      obtain rfl := Option.some.inj hdrawing
      have hcall := Gui.syscall_paint platform.font process w.memory w.kernel.terminal f.rdi f.rsi f.rdx f.rcx f.r8
      refine ⟨Ensures.ite (fun hcheck ↦ ?_) fun hcheck ↦ ?_⟩
      · refine (Draws.rejected ?_).ensures
        rw [hcall, if_neg (Gui.paint_check_iff.mp hcheck)]
      · rw [Gui.paint_check_iff, not_not] at hcheck
        refine (Draws.accepted ?_ ?_).ensures
        · rw [Gui.guiPaint_allowed hcheck]
          exact ⟨_, rfl⟩
        · rw [hcall, if_pos hcheck, Gui.guiPaint_allowed hcheck]
          rfl
    | drawtext =>
      obtain rfl := Option.some.inj hdrawing
      refine ⟨Ensures.ite (fun hcheck ↦ ?_) fun hcheck ↦ ?_⟩
      · refine (Draws.rejected ?_).ensures
        exact if_pos hcheck
      · refine (Draws.string (Nat.le_refl _) (fun s ↦ ?_) ?_).ensures
        · have hdraw := Gui.guiDrawtext_allowed (b := f.rsi) (d := f.rcx) (a := f.rdi) platform.font (by omega) s
          obtain ⟨pixels, hdraw⟩ := hdraw w.kernel.terminal.pixels
          rw [hdraw]
          exact ⟨_, rfl⟩
        · rw [textSize_eq]
          exact if_neg hcheck
    | terminal =>
      obtain rfl := Option.some.inj hdrawing
      refine Draws.string ?_ (fun s ↦ (Gui.guiTerminal_fits platform.font s _).imp fun _ h ↦ h.1) rfl
      rw [textSize_eq]
      decide
    | readline | getc | pollc | yield | files | readFile | writeFile | deleteFile | wait | identity => cases hdrawing

/-- A call that draws answers as the drawing call alone, and leaves the terminal that this leaves. -/
theorem syscall_draws (platform : Platform ν) (process : Process) (text name : Memory) (hw : w.kernel.terminal.Fits)
    (hdrawing : f.drawing = some call) :
    Ensures (syscall platform process text name f) w
      (fun n w' ↦ Gui.serve platform.font ⟨process, w.memory, call⟩ w.kernel.terminal = .ok (n, w'.kernel.terminal))
      (fun _ _ ↦ False) := by
  have hdraws := (switch_draws platform process text name hw hdrawing).ensures
  unfold Ensures at hdraws ⊢
  unfold syscall Gui.serve
  cases hswitch : switch platform process text name f w with
  | ok n w' =>
    rw [hswitch] at hdraws
    obtain ⟨rfl, hcall⟩ := hdraws
    rw [hcall]
    rfl
  | error halt w' =>
    rw [hswitch] at hdraws
    obtain ⟨rfl, hkernel, hcall⟩ := hdraws
    rw [hcall]
    exact congrArg (fun k ↦ Except.ok (-1, k.terminal)) hkernel.symm

end JordyOS.Isolation
