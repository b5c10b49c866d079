import JordyOS.Gui.Clipping
import JordyOS.Isolation.UserRange

/-!
# The drawing calls of programs

The system calls of `isolation.c` that draw, with the checks of their arguments, served one after another in any
order.  None of them draws beside the screen, a rectangle is drawn exactly where it meets the screen, and the cursor of
the terminal stays in its cells.
-/

namespace JordyOS.Gui

open Machine Isolation

/-! ## The code -/

/-- `user_string`, from the byte `i` on. -/
def userString (process : Process) (memory : UInt64 → UInt8) (source : UInt64) : (left i : ℕ) → Scan (List UInt8)
  | 0, _ => reject
  | left + 1, i =>
    if source.toNat > 2 ^ 64 - 1 - i then reject
    else
      match userRange (some process) (source + UInt64.ofNat i) 1 false with
      | none => fault
      | some false => reject
      | some true =>
        let c := memory (source + UInt64.ofNat i)
        if c = 0 then .ok []
        else do
          let rest ← userString process memory source left (i + 1)
          .ok (c :: rest)

/-- The calls that draw, with the registers they read. -/
inductive Call
  | write (a : UInt64)
  | clear
  | paint (a b c d e : UInt64)
  | drawtext (a b c d : UInt64)
  | terminal (a : UInt64)

/-- A call, with the program that makes it and what its memory holds at that time. -/
structure Request where
  process : Process
  memory : UInt64 → UInt8
  call : Call

/-- `(int64_t)a`. -/
def signed (a : UInt64) : ℤ := a.toInt64.toInt

/-- `(int)a`. -/
def truncated (a : UInt64) : ℤ := a.toUInt32.toInt32.toInt

variable (font : ℕ → UInt8)

/-- The branches of `syscall` that draw; a `break` in front of the answer is a rejection. -/
def syscall (process : Process) (memory : UInt64 → UInt8) (t : Terminal) : Call → Scan Terminal
  | .write a => do
    let text ← userString process memory a 2048 0
    puts font text t
  | .clear => guiClear font t
  | .paint a b c d e =>
    if signed a < -320 ∨ signed a > 320 ∨ signed b < -200 ∨ signed b > 200 ∨ c > 640 ∨ d > 400 ∨ e > 9 then reject
    else do
      let pixels ← guiPaint (truncated a) (truncated b) (truncated c) (truncated d) (truncated e) t.pixels
      .ok { t with pixels := pixels }
  | .drawtext a b c d =>
    if signed a < -320 ∨ signed a > 320 ∨ signed b < 0 ∨ b > 192 ∨ d > 9 then reject
    else do
      let text ← userString process memory c 2048 0
      let pixels ← guiDrawtext font (truncated a) (truncated b) text (truncated d) t.pixels
      .ok { t with pixels := pixels }
  | .terminal a => do
    let text ← userString process memory a 38 0
    guiTerminal font text t

/-- A call and its answer; a rejected call has drawn nothing. -/
def serve (request : Request) (t : Terminal) : Scan (ℤ × Terminal) := do
  match ← attempt (syscall font request.process request.memory t request.call) with
  | some t => .ok (0, t)
  | none => .ok (-1, t)

def serveAll : List Request → Terminal → Scan Terminal
  | [], t => .ok t
  | request :: requests, t => do
    let (_, t) ← serve font request t
    serveAll requests t

/-- The terminal before the first call. -/
def Terminal.start (pixels : Pixels) : Terminal := ⟨pixels, 0, 0, bytesOf "JordyOS / Shell"⟩

/-! ## The arguments -/

variable {font} {process : Process} {memory : UInt64 → UInt8} {source a b c d e : UInt64} {left i : ℕ} {t : Terminal}

/-- Where the value is small, the conversion to `int` keeps it. -/
theorem truncated_eq (hlow : -2 ^ 31 ≤ signed a) (hhigh : signed a < 2 ^ 31) : truncated a = signed a := by
  have hsigned : signed a = Int.bmod a.toNat (2 ^ 64) := BitVec.toInt_eq_toNat_bmod a.toBitVec
  have htruncated : truncated a = Int.bmod (signed a) (2 ^ 32) := by
    have hint : truncated a = Int.bmod a.toUInt32.toNat (2 ^ 32) :=
      BitVec.toInt_eq_toNat_bmod a.toUInt32.toBitVec
    rw [hint, hsigned, UInt64.toNat_toUInt32, Int.bmod_bmod_of_dvd (by decide), Int.natCast_mod, Int.emod_bmod]
  rw [htruncated, Int.bmod_eq_of_le]
  · omega
  · omega

theorem truncated_of_le {limit : ℕ} (hlimit : limit < 2 ^ 31) (h : a.toNat ≤ limit) : truncated a = a.toNat := by
  have hsigned : signed a = Int.bmod a.toNat (2 ^ 64) := BitVec.toInt_eq_toNat_bmod a.toBitVec
  have hvalue : signed a = a.toNat := by
    rw [hsigned, Int.bmod_eq_of_le] <;> omega
  rw [truncated_eq (by omega) (by omega), hvalue]

/-- `user_string` ends, and a string it accepts fits with its terminator. -/
theorem userString_fits (process : Process) (memory : UInt64 → UInt8) (source : UInt64) (left i : ℕ) :
    userString process memory source left i = reject ∨
      ∃ text, userString process memory source left i = .ok text ∧ text.length < left := by
  induction left generalizing i with
  | zero => exact Or.inl rfl
  | succ left ih =>
    unfold userString
    by_cases hwrap : source.toNat > 2 ^ 64 - 1 - i
    · exact Or.inl (if_pos hwrap)
    rw [if_neg hwrap]
    have hone : (1 : UInt64) ≠ 0 := by decide
    obtain ⟨answer, hanswer⟩ : ∃ answer, userRange (some process) (source + UInt64.ofNat i) 1 false = some answer :=
      (userRange_leaf process _ false hone).imp fun _ hleaf ↦ hleaf.1
    rw [hanswer]
    cases answer with
    | false => exact Or.inl rfl
    | true =>
      dsimp only
      by_cases hzero : memory (source + UInt64.ofNat i) = 0
      · rw [if_pos hzero]
        exact Or.inr ⟨[], rfl, Nat.zero_lt_succ left⟩
      rw [if_neg hzero]
      rcases ih (i + 1) with hreject | ⟨text, htext, hlength⟩
      · rw [hreject]
        exact Or.inl rfl
      · rw [htext]
        exact Or.inr ⟨_, rfl, Nat.succ_lt_succ hlength⟩

/-! ## Runs of calls -/

/-- The arguments with which `USYS_PAINT` draws. -/
def PaintAllowed (a b c d e : UInt64) : Prop :=
  (-320 ≤ signed a ∧ signed a ≤ 320) ∧ (-200 ≤ signed b ∧ signed b ≤ 200) ∧ c ≤ 640 ∧ d ≤ 400 ∧ e ≤ 9

instance (a b c d e : UInt64) : Decidable (PaintAllowed a b c d e) := inferInstanceAs (Decidable (_ ∧ _))

/-- The rectangle a program asks for, as far as it is on the screen, in the colour it asks for. -/
def paintedBy (a b c d e : UInt64) (pixels : Pixels) : Pixels := fun p ↦
  if Visible (signed a) (signed b) c.toNat d.toNat p then e.toUInt8 else pixels p

theorem ofInt_truncated (he : e.toNat ≤ 9) : UInt8.ofInt (truncated e) = e.toUInt8 := by
  rw [truncated_of_le (by decide) he, ← UInt8.toNat_inj, UInt64.toNat_toUInt8]
  have hofInt : (UInt8.ofInt (e.toNat : ℤ)).toNat = ((e.toNat : ℤ) % 2 ^ 8).toNat % 2 ^ 8 := rfl
  rw [hofInt]
  omega

/-- The checks of `USYS_PAINT`. -/
theorem paint_check_iff :
    (signed a < -320 ∨ signed a > 320 ∨ signed b < -200 ∨ signed b > 200 ∨ c > 640 ∨ d > 400 ∨ e > 9) ↔
      ¬ PaintAllowed a b c d e := by
  simp only [PaintAllowed, gt_iff_lt, UInt64.lt_iff_toNat_lt, UInt64.le_iff_toNat_le, UInt64.reduceToNat]
  omega

/-- What an allowed call draws. -/
theorem guiPaint_allowed (h : PaintAllowed a b c d e) (pixels : Pixels) :
    guiPaint (truncated a) (truncated b) (truncated c) (truncated d) (truncated e) pixels =
      .ok (paintedBy a b c d e pixels) := by
  obtain ⟨⟨ha, ha'⟩, ⟨hb, hb'⟩, hc, hd, he⟩ := h
  have hw : c.toNat ≤ 640 := UInt64.le_iff_toNat_le.mp hc
  have hh : d.toNat ≤ 400 := UInt64.le_iff_toNat_le.mp hd
  rw [truncated_eq (by omega) (by omega), truncated_eq (by omega) (by omega), truncated_of_le (by decide) hw,
    truncated_of_le (by decide) hh, guiPaint_eq ha hb (by omega) (by omega),
    ofInt_truncated (UInt64.le_iff_toNat_le.mp he)]
  rfl

theorem syscall_paint (font : ℕ → UInt8) (process : Process) (memory : UInt64 → UInt8) (t : Terminal)
    (a b c d e : UInt64) : syscall font process memory t (.paint a b c d e) =
      if PaintAllowed a b c d e then .ok { t with pixels := paintedBy a b c d e t.pixels } else reject := by
  rw [syscall]
  by_cases hallowed : PaintAllowed a b c d e
  · rw [if_neg fun h ↦ paint_check_iff.mp h hallowed, if_pos hallowed, guiPaint_allowed hallowed, ok_bind]
  · rw [if_pos (paint_check_iff.mpr hallowed), if_neg hallowed]

theorem guiDrawtext_allowed (font : ℕ → UInt8) (h : -320 ≤ signed a ∧ signed a ≤ 320) (s : List UInt8)
    (pixels : Pixels) :
    ∃ pixels', guiDrawtext font (truncated a) (truncated b) s (truncated d) pixels = .ok pixels' := by
  have hx : -320 ≤ truncated a := by
    rw [truncated_eq (by omega) (by omega)]
    exact h.1
  exact guiDrawtext_ok font hx s (truncated d) pixels

/-- A call is rejected or draws on the screen, and the cursor stays in the cells. -/
theorem syscall_fits (font : ℕ → UInt8) (ht : t.Fits) (process : Process) (memory : UInt64 → UInt8) (call : Call) :
    syscall font process memory t call = reject ∨ ∃ t', syscall font process memory t call = .ok t' ∧ t'.Fits := by
  cases call with
  | write a =>
    rw [syscall]
    rcases userString_fits process memory a 2048 0 with hreject | ⟨text, htext, -⟩
    · rw [hreject]
      exact Or.inl rfl
    · rw [htext]
      exact Or.inr (puts_fits font ht text)
  | clear => exact Or.inr (guiClear_fits font ht.title)
  | paint a b c d e =>
    rw [syscall_paint]
    by_cases hallowed : PaintAllowed a b c d e
    · rw [if_pos hallowed]
      exact Or.inr ⟨_, rfl, ht.row, ht.column, ht.title⟩
    · exact Or.inl (if_neg hallowed)
  | drawtext a b c d =>
    rw [syscall]
    by_cases hcheck : signed a < -320 ∨ signed a > 320 ∨ signed b < 0 ∨ b > 192 ∨ d > 9
    · exact Or.inl (if_pos hcheck)
    rw [if_neg hcheck]
    rcases userString_fits process memory c 2048 0 with hreject | ⟨text, htext, -⟩
    · rw [hreject]
      exact Or.inl rfl
    obtain ⟨pixels, hdraw⟩ := guiDrawtext_allowed (b := b) (d := d) (a := a) font (by omega) text t.pixels
    rw [htext, ok_bind, hdraw, ok_bind]
    exact Or.inr ⟨_, rfl, ht.row, ht.column, ht.title⟩
  | terminal a =>
    rw [syscall]
    rcases userString_fits process memory a 38 0 with hreject | ⟨text, htext, -⟩
    · rw [hreject]
      exact Or.inl rfl
    rw [htext, ok_bind]
    exact Or.inr (guiTerminal_fits font text t)

theorem serve_fits (ht : t.Fits) (request : Request) :
    ∃ answer t', serve font request t = .ok (answer, t') ∧ t'.Fits := by
  rcases syscall_fits font ht request.process request.memory request.call with hreject | ⟨t', hok, hfits⟩
  · refine ⟨-1, t, ?_, ht⟩
    unfold serve
    rw [hreject]
    rfl
  · refine ⟨0, t', ?_, hfits⟩
    unfold serve
    rw [hok]
    rfl

theorem serveAll_fits (ht : t.Fits) (requests : List Request) :
    ∃ t', serveAll font requests t = .ok t' ∧ t'.Fits := by
  induction requests generalizing t with
  | nil => exact ⟨t, rfl, ht⟩
  | cons request requests ih =>
    obtain ⟨answer, t', hserve, hfits⟩ := serve_fits ht request
    obtain ⟨t'', hrest, hfits'⟩ := ih hfits
    refine ⟨t'', ?_, hfits'⟩
    rw [serveAll, hserve]
    exact hrest

/-- After any calls, and behind every character of a text that is written then, the cursor is in one of the cells;
nothing was drawn beside the screen, and `USYS_PAINT` fills what of the rectangle is on the screen. -/
theorem serveAll_onScreen (font : ℕ → UInt8) (pixels : Pixels) (requests : List Request) :
    ∃ t, serveAll font requests (Terminal.start pixels) = .ok t ∧ t.Fits ∧
      (∀ s, ∃ t', puts font s t = .ok t' ∧ t'.Fits) ∧
      ∀ process memory a b c d e, serve font ⟨process, memory, .paint a b c d e⟩ t =
        .ok (if PaintAllowed a b c d e then (0, { t with pixels := paintedBy a b c d e t.pixels }) else (-1, t)) := by
  have hstart : (Terminal.start pixels).Fits :=
    ⟨(by decide : (0 : ℤ) ≤ 0 ∧ (0 : ℤ) < 20), (by decide : (0 : ℤ) ≤ 0 ∧ (0 : ℤ) < 38),
      (by decide : (bytesOf "JordyOS / Shell").length ≤ 37)⟩
  obtain ⟨t, hrun, hfits⟩ := serveAll_fits hstart requests
  refine ⟨t, hrun, hfits, fun s ↦ puts_fits font hfits s, ?_⟩
  intro process memory a b c d e
  unfold serve
  rw [syscall_paint]
  by_cases hallowed : PaintAllowed a b c d e
  · rw [if_pos hallowed, if_pos hallowed]
    rfl
  · rw [if_neg hallowed, if_neg hallowed]
    rfl

end JordyOS.Gui
