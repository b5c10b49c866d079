import JordyOS.Isolation.Services

/-!
# Checked system calls

Whatever the number and the registers of a call are, its services read and write user memory only where the tables of
the active process let ring 3 do so, write only inside the buffer that the caller passed, and never leave a buffer of
the kernel; a call that is rejected has read at most.
-/

namespace JordyOS.Isolation

open Machine Paging

/-! ## What a call may do -/

/-- The tables let ring 3 do the access, and a write hits the `length` bytes from `buffer` on. -/
structure Access.Permitted (t : PageTables) (buffer length : ℕ) (x : Access) : Prop where
  base : userBase ≤ x.address.toNat
  top : x.address.toNat < userStackTop
  accessible : Accessible t x.write x.address.toNat
  target : x.write = true → buffer ≤ x.address.toNat ∧ x.address.toNat < buffer + length

/-- What holds of the variables of the kernel between calls. -/
structure Kernel.Sound {ν : Type} (k : Kernel ν) : Prop where
  files : ∃ s, Files.Represents k.fsFiles s
  terminal : k.terminal.Fits

variable {ν : Type}

/-- So far the call has only looked at user memory. -/
structure World.Looks (t : PageTables) (k : Kernel ν) (memory : UInt64 → UInt8) (w : World ν) : Prop where
  kernel : w.kernel = k
  memory : w.memory = memory
  reads : ∀ x ∈ w.accesses, x.write = false ∧ x.Permitted t 0 0

/-- All accesses of the call were permitted, and what has changed in user memory was written by one of them. -/
structure World.Confined (t : PageTables) (buffer length : ℕ) (memory : UInt64 → UInt8) (w : World ν) : Prop where
  permitted : ∀ x ∈ w.accesses, x.Permitted t buffer length
  changed : ∀ a, w.memory a ≠ memory a → ⟨true, a⟩ ∈ w.accesses
  sound : w.kernel.Sound

/-- How a call may end without an answer. -/
def Halted (t : PageTables) (buffer length : ℕ) (k : Kernel ν) (memory : UInt64 → UInt8) : Halt → World ν → Prop
  | .fault, _ => False
  | .waiting, w => w.Confined t buffer length memory ∧ w.kernel.polls = []
  | .rejected, w => w.Looks t k memory

/-- The process may access the range. -/
def Granted (t : PageTables) (address size : UInt64) (write : Bool) : Prop :=
  ∀ i < size.toNat, (address + UInt64.ofNat i).toNat = address.toNat + i ∧ userBase ≤ address.toNat + i ∧
    address.toNat + i < userStackTop ∧ Accessible t write (address.toNat + i)

/-! ## Accesses -/

variable {t : PageTables} {buffer length room size i left n : ℕ} {k : Kernel ν} {memory : UInt64 → UInt8}
  {w : World ν} {process : Process} {a address destination source extent : UInt64} {byte : UInt8} {write : Bool}
  {out m : Memory} {halt : Halt → World ν → Prop} {platform : Platform ν}

/-- A read is permitted whatever the buffer of the call is. -/
theorem Access.Permitted.read {x : Access} (h : x.Permitted t 0 0) (hread : x.write = false) :
    x.Permitted t buffer length where
  base := h.base
  top := h.top
  accessible := h.accessible
  target := by
    intro hwrite
    rw [hread] at hwrite
    cases hwrite

theorem World.Looks.confined (h : w.Looks t k memory) (hk : k.Sound) (buffer length : ℕ) :
    w.Confined t buffer length memory where
  permitted x hx := (h.reads x hx).2.read (h.reads x hx).1
  changed a ha := absurd (congrFun h.memory a) ha
  sound := h.kernel ▸ hk

theorem Granted.permitted (h : Granted t address extent false) (hi : i < extent.toNat) :
    (⟨false, address + UInt64.ofNat i⟩ : Access).Permitted t 0 0 := by
  obtain ⟨haddress, hbase, htop, haccessible⟩ := h i hi
  refine ⟨?_, ?_, ?_, nofun⟩
  all_goals
    dsimp only
    rw [haddress]
    assumption

theorem Granted.permitted_write (h : Granted t address extent true) (hi : i < extent.toNat) :
    (⟨true, address + UInt64.ofNat i⟩ : Access).Permitted t address.toNat extent.toNat := by
  obtain ⟨haddress, hbase, htop, haccessible⟩ := h i hi
  refine ⟨?_, ?_, ?_, fun _ ↦ ?_⟩
  all_goals
    dsimp only
    rw [haddress]
  · exact hbase
  · exact htop
  · exact haccessible
  · omega

/-- Memory is read where it may be. -/
theorem load_ensures (h : w.Looks t k memory) (ha : (⟨false, a⟩ : Access).Permitted t 0 0) :
    Ensures (load a) w (fun _ w ↦ w.Looks t k memory) halt := by
  refine Ensures.bind (Ensures.get (Ensures.bind (Ensures.set (Ensures.pure ⟨h.kernel, h.memory, ?_⟩))))
  intro x hx
  rcases List.mem_append.mp hx with hold | hnew
  · exact h.reads x hold
  · obtain rfl := List.mem_singleton.mp hnew
    exact ⟨rfl, ha⟩

theorem store_ensures (h : w.Confined t buffer length memory) (ha : (⟨true, a⟩ : Access).Permitted t buffer length)
    (byte : UInt8) : Ensures (store a byte) w (fun _ w ↦ w.Confined t buffer length memory) halt := by
  refine Ensures.modify ⟨?_, ?_, h.sound⟩
  · intro x hx
    rcases List.mem_append.mp hx with hold | hnew
    · exact h.permitted x hold
    · obtain rfl := List.mem_singleton.mp hnew
      exact ha
  · intro a' hchanged
    refine List.mem_append.mpr ?_
    by_cases hsame : a' = a
    · exact Or.inr (List.mem_singleton.mpr (congrArg (Access.mk true) hsame))
    · dsimp only at hchanged
      rw [Function.update_of_ne hsame] at hchanged
      exact Or.inl (h.changed a' hchanged)

theorem fetch_returns (m : Memory) (hi : i < room) (w : World ν) : Returns (fetch room m i) w (m i) w :=
  Returns.ite_pos hi Returns.pure

theorem put_returns (m : Memory) (hi : i < room) (byte : UInt8) (w : World ν) :
    Returns (put room m i byte) w (m.set i byte) w :=
  Returns.ite_pos hi Returns.pure

theorem ofOption_returns {α : Type} {x : Option α} {y : α} (hx : x = some y) (w : World ν) :
    Returns (ofOption x) w y w := by
  rw [hx]
  exact Returns.pure

theorem ofScan_returns {α : Type} {x : Scan α} {y : α} (hx : x = .ok y) (w : World ν) : Returns (ofScan x) w y w := by
  rw [hx]
  exact Returns.pure

theorem stringIn_returns (hm : m.strlen room = some n) (w : World ν) : Returns (stringIn room m) w (m.bytes n) w :=
  ofOption_returns (congrArg (Option.map m.bytes) hm) w

/-- Bytes are copied to a range that may be written. -/
theorem copyOut_ensures (h : w.Confined t destination.toNat extent.toNat memory) (m : Memory)
    (hgranted : Granted t destination extent true) (hroom : size ≤ room) (hsize : size ≤ extent.toNat) :
    Ensures (copyOut room destination m size) w (fun _ w ↦ w.Confined t destination.toNat extent.toNat memory)
      halt := by
  refine Ensures.forM (fun w : World ν ↦ w.Confined t destination.toNat extent.toNat memory) h fun i hi w hw ↦ ?_
  have hlt : i < size := List.mem_range.mp hi
  refine (fetch_returns m (hlt.trans_le hroom) w).andThen ?_
  exact store_ensures hw (hgranted.permitted_write (hlt.trans_le hsize)) _

/-- Bytes are copied from a range that may be read. -/
theorem copyIn_ensures (h : w.Looks t k memory) (m : Memory)
    (hgranted : Granted t source extent false) (hroom : size ≤ room) (hsize : size ≤ extent.toNat) :
    Ensures (copyIn room m source size) w (fun _ w ↦ w.Looks t k memory) halt := by
  refine Ensures.foldlM (fun _ (w : World ν) ↦ w.Looks t k memory) h fun i hi m w hw ↦ ?_
  have hlt : i < size := List.mem_range.mp hi
  refine Ensures.andThen (load_ensures hw (hgranted.permitted (hlt.trans_le hsize))) ?_
  intro byte w hw
  exact (put_returns m (hlt.trans_le hroom) byte w).ensures hw

/-! ## The checks of pointers -/

theorem checkRange_returns (process : Process) (address size : UInt64) (write : Bool) (w : World ν) :
    ∃ granted, Returns (checkRange process address size write) w granted w ∧
      (granted = true → Granted process.tables address size write) := by
  by_cases hsize : size = 0
  · refine ⟨true, ofOption_returns (if_pos hsize) w, fun _ i hi ↦ ?_⟩
    rw [hsize] at hi
    exact absurd hi (Nat.not_lt_zero i)
  · obtain ⟨granted, hanswer, hiff⟩ := userRange_leaf process address write hsize
    refine ⟨granted, ofOption_returns hanswer w, fun hgranted i hi ↦ ?_⟩
    obtain ⟨htop, hbase, haccessible⟩ := hiff.mp hgranted
    have hstack : userStackTop < 2 ^ 64 := by decide
    have hsmall : (UInt64.ofNat i).toNat = i := UInt64.toNat_ofNat_of_lt' (by rw [UInt64.size]; omega)
    refine ⟨?_, by omega, by omega, haccessible _ (by omega) (by omega)⟩
    rw [UInt64.toNat_add, hsmall]
    omega

/-- A string that `user_string` accepts ends inside the buffer, and only readable bytes were looked at. -/
theorem userString_ensures (h : w.Looks process.tables k memory) (source : UInt64) (hroom : i + left ≤ room) :
    Ensures (userString process source room left i out) w (fun result w ↦ w.Looks process.tables k memory ∧
      ∀ m, result = some m → ∃ n, m.strlen room = some n) halt := by
  induction left generalizing i out w with
  | zero => exact Ensures.pure ⟨h, nofun⟩
  | succ left ih =>
    refine Ensures.ite (fun _ ↦ Ensures.pure ⟨h, nofun⟩) fun _ ↦ ?_
    obtain ⟨readable, hanswer, hgranted⟩ := checkRange_returns process (source + UInt64.ofNat i) 1 false w
    refine hanswer.andThen ?_
    refine Ensures.ite (fun hreadable ↦ ?_) fun _ ↦ Ensures.pure ⟨h, nofun⟩
    have hpermitted := (hgranted hreadable).permitted (i := 0) (by decide)
    have hfirst : source + UInt64.ofNat i + UInt64.ofNat 0 = source + UInt64.ofNat i := UInt64.add_zero _
    rw [hfirst] at hpermitted
    refine Ensures.andThen (load_ensures h hpermitted) fun byte w hw ↦ ?_
    refine (put_returns out (by omega : i < room) byte w).andThen ?_
    refine Ensures.ite (fun hzero ↦ Ensures.pure ⟨hw, ?_⟩) fun _ ↦ ih hw (by omega)
    rintro m hm
    obtain rfl := Option.some.inj hm
    have hend : (out.set i byte) i = 0 := by rw [Memory.set_self, hzero]
    obtain ⟨n, -, hn⟩ := Memory.exists_terminator (by omega : i < room) hend
    exact ⟨n, hn⟩

/-! ## Console and screen -/

theorem draw_returns {f : Gui.Terminal → Scan Gui.Terminal} {screen : Gui.Terminal}
    (h : f w.kernel.terminal = .ok screen) :
    Returns (draw f) w ⟨⟩ { w with kernel := { w.kernel with terminal := screen } } :=
  Returns.bind Returns.get (Returns.bind (ofScan_returns h w) rfl)

theorem draw_ensures (h : w.Confined t buffer length memory) {f : Gui.Terminal → Scan Gui.Terminal}
    (hf : ∀ t : Gui.Terminal, t.Fits → ∃ t', f t = .ok t' ∧ t'.Fits) :
    Ensures (draw f) w (fun _ w' ↦ w'.Confined t buffer length memory ∧ w'.kernel.polls = w.kernel.polls) halt := by
  obtain ⟨screen, hscreen, hfits⟩ := hf w.kernel.terminal h.sound.terminal
  exact (draw_returns hscreen).ensures ⟨⟨h.permitted, h.changed, h.sound.files, hfits⟩, rfl⟩

theorem devices_ensures (h : w.Confined t buffer length memory) (f : ν → ν) :
    Ensures (devices f) w
      (fun _ w' ↦ w'.Confined t buffer length memory ∧ w'.kernel.polls = w.kernel.polls) halt :=
  Ensures.modify ⟨⟨h.permitted, h.changed, h.sound.files, h.sound.terminal⟩, rfl⟩

-- A service may wait when there are no more polls.
variable (hwait : ∀ w : World ν, w.Confined t buffer length memory → w.kernel.polls = [] → halt .waiting w)

include hwait

/-- A poll is taken from those that are left. -/
theorem pollCh_ensures (h : w.Confined t buffer length memory) :
    Ensures (pollCh platform) w (fun _ w' ↦ w'.Confined t buffer length memory ∧
      w'.kernel.polls.length < w.kernel.polls.length) halt := by
  refine Ensures.andThen (devices_ensures h platform.rtlPoll) ?_
  rintro _ w' ⟨hw, hsame⟩
  refine Ensures.bind (Ensures.get ?_)
  rw [← hsame]
  cases hpolls : w'.kernel.polls with
  | nil => exact Ensures.throw (hwait w' hw hpolls)
  | cons c polls =>
    refine Ensures.bind (Ensures.set (Ensures.pure ⟨?_, Nat.lt_succ_self polls.length⟩))
    exact ⟨hw.permitted, hw.changed, hw.sound.files, hw.sound.terminal⟩

theorem getChLoop_ensures {rounds : ℕ} (hrounds : w.kernel.polls.length < rounds)
    (h : w.Confined t buffer length memory) :
    Ensures (getChLoop platform rounds) w (fun _ w' ↦ w'.Confined t buffer length memory ∧
      w'.kernel.polls.length < w.kernel.polls.length) halt := by
  induction rounds generalizing w with
  | zero => exact absurd hrounds (Nat.not_lt_zero _)
  | succ rounds ih =>
    refine Ensures.andThen (pollCh_ensures hwait h) ?_
    rintro c w' ⟨hw, hfewer⟩
    refine Ensures.ite (fun _ ↦ Ensures.pure ⟨hw, hfewer⟩) fun _ ↦ ?_
    refine (ih (by omega) hw).mono ?_ fun _ _ h ↦ h
    rintro c w'' ⟨hw, hless⟩
    exact ⟨hw, hless.trans hfewer⟩

theorem getCh_ensures (h : w.Confined t buffer length memory) :
    Ensures (getCh platform) w (fun _ w' ↦ w'.Confined t buffer length memory ∧
      w'.kernel.polls.length < w.kernel.polls.length) halt :=
  Ensures.bind (Ensures.get (getChLoop_ensures hwait (Nat.lt_succ_self _) h))

/-- A line is read into its buffer and ends in front of `max`. -/
theorem readLineLoop_ensures {max : ℤ} (hmax : max ≤ room) {rounds len : ℕ}
    (hrounds : w.kernel.polls.length < rounds) (hlen : len < max) (h : w.Confined t buffer length memory) :
    Ensures (readLineLoop platform room max rounds len out) w
      (fun m w ↦ w.Confined t buffer length memory ∧ ∃ n : ℕ, m.strlen room = some n ∧ n < max) halt := by
  have hputc : ∀ c, ∀ t : Gui.Terminal, t.Fits → ∃ t', Gui.guiPutc platform.font c t = .ok t' ∧ t'.Fits := by
    intro c t ht
    obtain ⟨t', hputs, hfits⟩ := Gui.puts_fits platform.font ht [c]
    exact ⟨t', (bind_pure _).symm.trans hputs, hfits⟩
  induction rounds generalizing len out w with
  | zero => exact absurd hrounds (Nat.not_lt_zero _)
  | succ rounds ih =>
    refine Ensures.andThen (getCh_ensures hwait h) ?_
    rintro c w' ⟨hw, hfewer⟩
    refine Ensures.ite (fun _ ↦ ?_) fun _ ↦ Ensures.ite (fun _ ↦ ?_) fun _ ↦ Ensures.ite (fun hprint ↦ ?_) ?_
    · refine Ensures.andThen (draw_ensures hw (hputc 10)) ?_
      rintro _ w'' ⟨hw, -⟩
      obtain ⟨n, hn, hterminator⟩ := Memory.exists_terminator (by omega : len < room) (Memory.set_self out len 0)
      exact (put_returns out (by omega : len < room) 0 w'').ensures ⟨hw, n, hterminator, by omega⟩
    · refine Ensures.andThen (draw_ensures hw fun t ht ↦ Gui.puts_fits _ ht _) ?_
      rintro _ w'' ⟨hw, hsame⟩
      exact ih (by rw [hsame]; omega) (by omega) hw
    · refine (put_returns out (by omega : len < room) c w').andThen ?_
      refine Ensures.andThen (draw_ensures hw (hputc c)) ?_
      rintro _ w'' ⟨hw, hsame⟩
      exact ih (by rw [hsame]; omega) (by omega) hw
    · exact fun _ ↦ ih (by omega) hlen hw

theorem readLine_ensures {max : ℤ} (hpos : 0 < max) (hmax : max ≤ room) (h : w.Confined t buffer length memory) :
    Ensures (readLine platform room out max) w
      (fun m w ↦ w.Confined t buffer length memory ∧ ∃ n : ℕ, m.strlen room = some n ∧ n < max) halt := by
  refine Ensures.ite (fun hempty ↦ by omega) fun _ ↦ ?_
  exact Ensures.bind (Ensures.get (readLineLoop_ensures hwait hmax (Nat.lt_succ_self _) hpos h))

omit hwait

/-! ## The services -/

/-- The buffer that the caller passes for the answer, and its length. -/
def Usys.target (a b c : UInt64) : Usys → UInt64 × UInt64
  | .readline | .files => (a, b)
  | .readFile => (b, c)
  | _ => (0, 0)

/-- A service whose string is accepted goes on with it, and is rejected otherwise. -/
theorem userString_then {f : Memory → Service ν ℤ} {post : ℤ → World ν → Prop} (source : UInt64)
    (h : w.Looks process.tables k memory) (hroom : left ≤ room)
    (hreject : ∀ w : World ν, w.Looks process.tables k memory → halt .rejected w)
    (hf : ∀ m n w, m.strlen room = some n → w.Looks process.tables k memory → Ensures (f m) w post halt) :
    Ensures (do
      let some m ← userString process source room left 0 out | throw .rejected
      f m) w post halt := by
  refine Ensures.andThen (userString_ensures h source (by omega : 0 + left ≤ room)) ?_
  rintro result w ⟨hw, hstring⟩
  cases result with
  | none => exact Ensures.throw (hreject w hw)
  | some m =>
    obtain ⟨n, hn⟩ := hstring m rfl
    exact hf m n w hn hw

/-- The range that a service asks for is granted, or the service is rejected. -/
theorem checkRange_then {x : Service ν ℤ} {post : ℤ → World ν → Prop} (address size : UInt64) (write : Bool)
    (h : w.Looks process.tables k memory)
    (hreject : ∀ w : World ν, w.Looks process.tables k memory → halt .rejected w)
    (hx : Granted process.tables address size write → Ensures x w post halt) :
    Ensures (do
      let granted ← checkRange process address size write
      if granted then x else throw .rejected) w post halt := by
  obtain ⟨granted, hanswer, hgranted⟩ := checkRange_returns process address size write w
  refine hanswer.andThen ?_
  exact Ensures.ite (fun hanswer ↦ hx (hgranted hanswer)) fun _ ↦ Ensures.throw (hreject _ h)

theorem World.Looks.halted (h : w.Looks t k memory) : Halted t buffer length k memory .rejected w := h

theorem World.Confined.halted (h : w.Confined t buffer length memory) (hpolls : w.kernel.polls = []) :
    Halted t buffer length k memory .waiting w := ⟨h, hpolls⟩

/-- The contract of a service that is called with the given kernel and user memory. -/
structure Keeps (process : Process) (k : Kernel ν) (memory : UInt64 → UInt8) (target : UInt64 × UInt64)
    (x : Service ν ℤ) : Prop where
  ensures : Ensures x ⟨k, memory, []⟩
    (fun _ w ↦ w.Confined process.tables target.1.toNat target.2.toNat memory)
    (Halted process.tables target.1.toNat target.2.toNat k memory)

variable (hk : k.Sound) (text name : Memory) (a b c d e : UInt64)

theorem start_looks (t : PageTables) (k : Kernel ν) (memory : UInt64 → UInt8) :
    (⟨k, memory, []⟩ : World ν).Looks t k memory := ⟨rfl, rfl, nofun⟩

include hk

/-- A service that draws with a string of the caller. -/
theorem drawString_keeps {f : List UInt8 → Gui.Terminal → Scan Gui.Terminal} (source : UInt64) (hroom : left ≤ textSize)
    (hf : ∀ s t, t.Fits → ∃ t', f s t = .ok t' ∧ t'.Fits) :
    Keeps process k memory (0, 0) (do
      let some text ← userString process source textSize left 0 text | throw .rejected
      let s ← stringIn textSize text
      draw (f s)
      pure 0) := by
  refine ⟨userString_then source (start_looks _ k memory) hroom ?_ fun m n w hm hw ↦ ?_⟩
  · exact fun _ h ↦ h.halted
  refine (stringIn_returns hm w).andThen ?_
  exact Ensures.andThen (draw_ensures (hw.confined hk _ _) (hf _)) fun _ w hw ↦ Ensures.pure hw.1

theorem write_keeps : Keeps process k memory (0, 0) (service platform process text name a b c d e .write) :=
  drawString_keeps hk text a (Nat.le_refl _) fun s _ ht ↦ Gui.puts_fits _ ht s

theorem terminal_keeps : Keeps process k memory (0, 0) (service platform process text name a b c d e .terminal) :=
  drawString_keeps hk text a (by rw [textSize_eq]; decide) fun s t _ ↦ Gui.guiTerminal_fits _ s t

theorem drawtext_keeps : Keeps process k memory (0, 0) (service platform process text name a b c d e .drawtext) := by
  refine ⟨Ensures.ite (fun _ ↦ Ensures.throw (start_looks _ k memory).halted) fun hcheck ↦ ?_⟩
  refine (drawString_keeps hk text c (Nat.le_refl _) fun s t ht ↦ ?_).ensures
  obtain ⟨pixels, hdraw⟩ := Gui.guiDrawtext_allowed (a := a) (b := b) (d := d) platform.font (by omega) s t.pixels
  rw [hdraw]
  exact ⟨_, rfl, ht.row, ht.column, ht.title⟩

theorem readline_keeps : Keeps process k memory (a, b) (service platform process text name a b c d e .readline) := by
  refine ⟨Ensures.ite (fun _ ↦ Ensures.throw (start_looks _ k memory).halted) fun hcheck ↦ ?_⟩
  obtain ⟨hzero, hlarge⟩ := not_or.mp hcheck
  have hpos : 0 < b.toNat := Nat.pos_of_ne_zero fun heq ↦ hzero (UInt64.toNat_inj.mp heq)
  have hsize : b.toNat ≤ textSize := Nat.le_of_not_lt hlarge
  have hmax : Gui.truncated b = b.toNat := Gui.truncated_of_le (by decide) (textSize_eq ▸ hsize)
  refine checkRange_then a b true (start_looks _ k memory) ?_ fun hgranted ↦ ?_
  · exact fun _ h ↦ h.halted
  have hstart := (start_looks process.tables k memory).confined hk a.toNat b.toNat
  refine Ensures.andThen (readLine_ensures (fun _ h ↦ h.halted) (by omega) (by omega) hstart) ?_
  rintro m w ⟨hw, n, hn, hlt⟩
  have hfits : (m.bytes n).length + 1 ≤ b.toNat := by
    rw [Memory.length_bytes]
    omega
  refine (stringIn_returns hn w).andThen ?_
  exact Ensures.andThen (copyOut_ensures hw m hgranted (hfits.trans hsize) hfits) fun _ w hw ↦ Ensures.pure hw

theorem getc_keeps : Keeps process k memory (0, 0) (service platform process text name a b c d e .getc) :=
  ⟨Ensures.andThen (getCh_ensures (fun _ h ↦ h.halted) ((start_looks _ k memory).confined hk _ _))
    fun _ _ hw ↦ Ensures.pure hw.1⟩

theorem pollc_keeps : Keeps process k memory (0, 0) (service platform process text name a b c d e .pollc) :=
  ⟨Ensures.andThen (pollCh_ensures (fun _ h ↦ h.halted) ((start_looks _ k memory).confined hk _ _))
    fun _ _ hw ↦ Ensures.pure hw.1⟩

theorem devices_keeps (f : ν → ν) : Keeps process k memory (0, 0) (do
    devices f
    pure 0) :=
  ⟨Ensures.andThen (devices_ensures ((start_looks _ k memory).confined hk _ _) f) fun _ _ hw ↦ Ensures.pure hw.1⟩

theorem wait_keeps : Keeps process k memory (0, 0) (service platform process text name a b c d e .wait) :=
  ⟨Ensures.ite (fun _ ↦ Ensures.throw (start_looks _ k memory).halted) fun _ ↦ (devices_keeps hk _).ensures⟩

theorem draw_keeps {f : Gui.Terminal → Scan Gui.Terminal} (hf : ∀ t, t.Fits → ∃ t', f t = .ok t' ∧ t'.Fits) :
    Keeps process k memory (0, 0) (do
      draw f
      pure 0) :=
  ⟨Ensures.andThen (draw_ensures ((start_looks _ k memory).confined hk _ _) hf) fun _ _ hw ↦ Ensures.pure hw.1⟩

theorem paint_keeps : Keeps process k memory (0, 0) (service platform process text name a b c d e .paint) := by
  refine ⟨Ensures.ite (fun _ ↦ Ensures.throw (start_looks _ k memory).halted) fun hcheck ↦ ?_⟩
  refine (draw_keeps hk fun t ht ↦ ?_).ensures
  rw [Gui.paint_check_iff, not_not] at hcheck
  rw [Gui.guiPaint_allowed hcheck]
  exact ⟨_, rfl, ht.row, ht.column, ht.title⟩

theorem files_keeps : Keeps process k memory (a, b) (service platform process text name a b c d e .files) := by
  refine ⟨Ensures.ite (fun _ ↦ Ensures.throw (start_looks _ k memory).halted) fun hcheck ↦ ?_⟩
  obtain ⟨hzero, hlarge⟩ := not_or.mp hcheck
  have hpos : 0 < b.toNat := Nat.pos_of_ne_zero fun heq ↦ hzero (UInt64.toNat_inj.mp heq)
  have hsize : b.toNat ≤ textSize := by
    have hle : b.toNat ≤ 16 * (32 + 1) := Nat.le_of_not_lt hlarge
    rw [textSize_eq]
    omega
  have hmax : Gui.truncated b = b.toNat := Gui.truncated_of_le (by decide) (textSize_eq ▸ hsize)
  refine checkRange_then a b true (start_looks _ k memory) ?_ fun hgranted ↦ ?_
  · exact fun _ h ↦ h.halted
  obtain ⟨store, hstore⟩ := hk.files
  obtain ⟨names, out, hlist, hholds, -⟩ :=
    Files.sysListFiles_holds hstore.terminated text (by omega : 1 ≤ Gui.truncated b)
  rw [← Files.sysListFilesIn_eq (by omega : Gui.truncated b ≤ textSize), Option.map_eq_some_iff] at hlist
  obtain ⟨⟨count, listing⟩, hlist, hpair⟩ := hlist
  obtain ⟨rfl, -⟩ := Prod.mk.inj hpair
  have hroom := hholds.room
  have hfits : names.length + 1 ≤ b.toNat := by omega
  refine Ensures.bind (Ensures.get ((ofOption_returns hlist _).andThen ?_))
  refine Ensures.ite (fun _ ↦ ?_) fun hneg ↦ absurd (Int.natCast_nonneg _) hneg
  exact Ensures.andThen (copyOut_ensures ((start_looks _ k memory).confined hk _ _) listing hgranted (hfits.trans hsize)
    hfits) fun _ _ hw ↦ Ensures.pure hw

theorem readFile_keeps : Keeps process k memory (b, c) (service platform process text name a b c d e .readFile) := by
  refine ⟨Ensures.ite (fun _ ↦ Ensures.throw (start_looks _ k memory).halted) fun hlarge ↦ ?_⟩
  have hsize : c.toNat ≤ Files.maxFileSize := Nat.le_of_not_lt hlarge
  have hus : Gui.truncated c = c.toNat := Gui.truncated_of_le (by decide) hsize
  refine userString_then a (start_looks _ k memory) (Nat.le_refl _) ?_ fun fn length w hname hw ↦ ?_
  · exact fun _ h ↦ h.halted
  refine checkRange_then b c true hw ?_ fun hgranted ↦ ?_
  · exact fun _ h ↦ h.halted
  obtain ⟨store, hstore⟩ := hk.files
  have hconfined := hw.confined hk b.toNat c.toNat
  have hread := hstore.sysReadFile hname w.kernel.ioBuffer (Gui.truncated c)
  have hle := store.read_le (fn.text Files.maxFilenameLen) w.kernel.ioBuffer (by omega : 0 ≤ Gui.truncated c)
  have hroom : Gui.truncated c ≤ Files.maxFileSize := by omega
  rw [← Files.sysReadFileIn_eq hroom hroom, Option.map_eq_some_iff] at hread
  obtain ⟨⟨n, ioBuffer⟩, hread, hpair⟩ := hread
  obtain ⟨rfl, -⟩ := Prod.mk.inj hpair
  rw [← hw.kernel] at hread
  have hfits : (store.read (fn.text Files.maxFilenameLen) w.kernel.ioBuffer (Gui.truncated c)).1.toNat ≤ c.toNat := by
    omega
  refine Ensures.bind (Ensures.get ((ofOption_returns hread _).andThen ?_))
  refine Ensures.bind (Ensures.set (Ensures.ite (fun _ ↦ ?_) fun _ ↦ Ensures.pure ?_))
  · refine Ensures.andThen (copyOut_ensures ?_ ioBuffer hgranted (hfits.trans hsize) hfits) fun _ _ hw ↦ Ensures.pure hw
    exact ⟨hconfined.permitted, hconfined.changed, hconfined.sound.files, hconfined.sound.terminal⟩
  · exact ⟨hconfined.permitted, hconfined.changed, hconfined.sound.files, hconfined.sound.terminal⟩

theorem writeFile_keeps : Keeps process k memory (0, 0) (service platform process text name a b c d e .writeFile) := by
  refine ⟨Ensures.ite (fun _ ↦ Ensures.throw (start_looks _ k memory).halted) fun hlarge ↦ ?_⟩
  have hsize : c.toNat ≤ Files.maxFileSize := Nat.le_of_not_lt hlarge
  have hdl : Gui.truncated c = c.toNat := Gui.truncated_of_le (by decide) hsize
  refine userString_then a (start_looks _ k memory) (Nat.le_refl _) ?_ fun fn length w hname hw ↦ ?_
  · exact fun _ h ↦ h.halted
  refine checkRange_then b c false hw ?_ fun hgranted ↦ ?_
  · exact fun _ h ↦ h.halted
  obtain ⟨store, hstore⟩ := hk.files
  refine Ensures.bind (Ensures.get (Ensures.andThen (copyIn_ensures hw _ hgranted hsize (Nat.le_refl _)) ?_))
  intro ioBuffer w hw
  obtain ⟨next, hwrite, hnext⟩ := hstore.sysWriteFile hname ioBuffer (by omega : 0 ≤ Gui.truncated c)
  have hroom : Gui.truncated c ≤ Files.maxFileSize := by omega
  rw [← Files.sysWriteFileIn_eq ioBuffer hroom, ← hw.kernel] at hwrite
  refine Ensures.bind (Ensures.get ((ofOption_returns hwrite _).andThen ?_))
  have hconfined := hw.confined hk 0 0
  refine Ensures.bind (Ensures.set (Ensures.pure ?_))
  exact ⟨hconfined.permitted, hconfined.changed, ⟨_, hnext⟩, hconfined.sound.terminal⟩

theorem deleteFile_keeps :
    Keeps process k memory (0, 0) (service platform process text name a b c d e .deleteFile) := by
  refine ⟨userString_then a (start_looks _ k memory) (Nat.le_refl _) ?_ fun fn length w hname hw ↦ ?_⟩
  · exact fun _ h ↦ h.halted
  obtain ⟨store, hstore⟩ := hk.files
  obtain ⟨next, hdelete, hnext⟩ := hstore.sysDeleteFile hname
  rw [← hw.kernel] at hdelete
  refine Ensures.bind (Ensures.get ((ofOption_returns hdelete _).andThen ?_))
  have hconfined := hw.confined hk 0 0
  refine Ensures.bind (Ensures.set (Ensures.pure ?_))
  exact ⟨hconfined.permitted, hconfined.changed, ⟨_, hnext⟩, hconfined.sound.terminal⟩

/-- Every service keeps its contract. -/
theorem service_keeps (number : Usys) :
    Keeps process k memory (number.target a b c) (service platform process text name a b c d e number) := by
  cases number with
  | write => exact write_keeps hk text name a b c d e
  | readline => exact readline_keeps hk text name a b c d e
  | getc => exact getc_keeps hk text name a b c d e
  | pollc => exact pollc_keeps hk text name a b c d e
  | yield => exact devices_keeps hk platform.rtlPoll
  | clear => exact draw_keeps hk fun t ht ↦ Gui.guiClear_fits platform.font ht.title
  | files => exact files_keeps hk text name a b c d e
  | readFile => exact readFile_keeps hk text name a b c d e
  | writeFile => exact writeFile_keeps hk text name a b c d e
  | deleteFile => exact deleteFile_keeps hk text name a b c d e
  | paint => exact paint_keeps hk text name a b c d e
  | drawtext => exact drawtext_keeps hk text name a b c d e
  | terminal => exact terminal_keeps hk text name a b c d e
  | wait => exact wait_keeps hk text name a b c d e
  | identity => exact ⟨Ensures.bind (Ensures.get (Ensures.pure ((start_looks _ k memory).confined hk _ _)))⟩

omit hk

/-! ## Calls -/

/-- The buffer that the caller of `syscall` passes for the answer. -/
def InterruptFrame.target (f : InterruptFrame) : UInt64 × UInt64 :=
  match Usys.ofNumber f.rax with
  | none => (0, 0)
  | some number => number.target f.rdi f.rsi f.rdx

variable (f : InterruptFrame)

include hk

theorem switch_keeps (platform : Platform ν) (process : Process) (memory : UInt64 → UInt8) :
    Keeps process k memory f.target (switch platform process text name f) := by
  unfold switch InterruptFrame.target
  cases Usys.ofNumber f.rax with
  | none => exact ⟨Ensures.throw (start_looks process.tables k memory).halted⟩
  | some number => exact service_keeps hk text name _ _ _ _ _ number

/-- A rejected call has read at most, and is counted. -/
theorem syscall_of_rejected (hswitch : switch platform process text name f ⟨k, memory, []⟩ = .error .rejected w) :
    syscall platform process text name f ⟨k, memory, []⟩ =
        .ok (-1) ⟨{ k with rejected := k.rejected + 1 }, memory, w.accesses⟩ ∧
      ∀ x ∈ w.accesses, x.write = false := by
  have hlooks : w.Looks process.tables k memory :=
    (switch_keeps hk text name f platform process memory).ensures.of_error hswitch
  refine ⟨?_, fun x hx ↦ (hlooks.reads x hx).1⟩
  unfold syscall
  rw [hswitch]
  dsimp only [World.reject]
  rw [hlooks.kernel, hlooks.memory]

/-- A call is answered, or waits for a key that has not come. -/
theorem syscall_confined : Ensures (syscall platform process text name f) ⟨k, memory, []⟩
    (fun _ w ↦ w.Confined process.tables f.target.1.toNat f.target.2.toNat memory)
    (fun halt w ↦ halt = .waiting ∧ w.kernel.polls = [] ∧
      w.Confined process.tables f.target.1.toNat f.target.2.toNat memory) := by
  have hkeeps := (switch_keeps hk text name f platform process memory).ensures
  unfold Ensures at hkeeps ⊢
  unfold syscall
  cases hswitch : switch platform process text name f ⟨k, memory, []⟩ with
  | ok n w =>
    rw [hswitch] at hkeeps
    exact hkeeps
  | error halt w =>
    rw [hswitch] at hkeeps
    cases halt with
    | fault => exact hkeeps.elim
    | waiting => exact ⟨rfl, hkeeps.2, hkeeps.1⟩
    | rejected =>
      have hconfined := World.Looks.confined hkeeps hk f.target.1.toNat f.target.2.toNat
      exact ⟨hconfined.permitted, hconfined.changed, hconfined.sound.files, hconfined.sound.terminal⟩

omit hk

/-! ## Runs of the kernel -/

/-- The kernels that are reached by system calls of any processes and by what the kernel does between them: file calls
and output of its own, drawing, input and the network. -/
inductive Reachable (platform : Platform ν) : Kernel ν → Prop
  | start (previous : Files.FileSystem) (pixels : Gui.Pixels) (ioBuffer : Memory) (polls : List UInt8) (network : ν)
      (pid : UInt32) :
      Reachable platform ⟨Files.fsInit previous, Gui.Terminal.start pixels, ioBuffer, polls, network, pid, 0⟩
  | files {k : Kernel ν} {call : Files.Call} {outcome : Files.Outcome} {fsFiles : Files.FileSystem}
      (h : Reachable platform k) (hcall : call.Terminated)
      (hfiles : Files.FileSystem.call k.fsFiles call = some (outcome, fsFiles)) :
      Reachable platform { k with fsFiles := fsFiles }
  | print {k : Kernel ν} {s : List UInt8} {t : Gui.Terminal} (h : Reachable platform k)
      (hputs : Gui.puts platform.font s k.terminal = .ok t) : Reachable platform { k with terminal := t }
  | title {k : Kernel ν} {s : List UInt8} {t : Gui.Terminal} (h : Reachable platform k)
      (htitle : Gui.guiTerminal platform.font s k.terminal = .ok t) : Reachable platform { k with terminal := t }
  | draw {k : Kernel ν} (pixels : Gui.Pixels) (h : Reachable platform k) :
      Reachable platform { k with terminal := { k.terminal with pixels := pixels } }
  | devices {k : Kernel ν} (polls : List UInt8) (network : ν) (pid : UInt32) (h : Reachable platform k) :
      Reachable platform { k with polls := polls, network := network, pid := pid }
  | call {k : Kernel ν} {process : Process} {memory : UInt64 → UInt8} {text name : Memory} {f : InterruptFrame} {n : ℤ}
      {w : World ν} (h : Reachable platform k)
      (hcall : syscall platform process text name f ⟨k, memory, []⟩ = .ok n w) : Reachable platform w.kernel

theorem Reachable.sound (h : Reachable platform k) : k.Sound := by
  induction h with
  | start previous pixels ioBuffer polls network pid =>
    refine ⟨⟨_, Files.represents_fsInit previous⟩, ?_, ?_, ?_⟩
    · exact (by decide : (0 : ℤ) ≤ 0 ∧ (0 : ℤ) < 20)
    · exact (by decide : (0 : ℤ) ≤ 0 ∧ (0 : ℤ) < 38)
    · exact (by decide : (bytesOf "JordyOS / Shell").length ≤ 37)
  | files _ hcall hfiles ih =>
    obtain ⟨store, hstore⟩ := ih.files
    obtain ⟨next, hanswer, hnext⟩ := hstore.call _ hcall
    rw [hfiles, Option.some.injEq, Prod.mk.injEq] at hanswer
    exact ⟨⟨_, hanswer.2 ▸ hnext⟩, ih.terminal⟩
  | print _ hputs ih =>
    obtain ⟨t', hresult, hfits⟩ := Gui.puts_fits platform.font ih.terminal _
    rw [hputs] at hresult
    exact ⟨ih.files, Except.ok.inj hresult ▸ hfits⟩
  | title _ htitle ih =>
    obtain ⟨t', hresult, hfits⟩ := Gui.guiTerminal_fits platform.font _ _
    rw [htitle] at hresult
    exact ⟨ih.files, Except.ok.inj hresult ▸ hfits⟩
  | draw pixels _ ih => exact ⟨ih.files, ih.terminal.row, ih.terminal.column, ih.terminal.title⟩
  | devices polls network pid _ ih => exact ⟨ih.files, ih.terminal⟩
  | call _ hcall ih => exact ((syscall_confined ih _ _ _).of_ok hcall).sound

/-! ## Prepared processes -/

/-- The translation lets ring 3 do the access, and a write hits the `length` bytes from `buffer` on. -/
def Access.Allowed (frames : Frames) (root buffer length : ℕ) (x : Access) : Prop :=
  ∃ u, walk frames root (x.address.toNat / page) = some u ∧ u.user = true ∧
    (x.write = true → u.writable = true ∧ buffer ≤ x.address.toNat ∧ x.address.toNat < buffer + length)

/-- Every access is allowed, and what has changed in user memory was written by one of them. -/
structure World.Checked (allowed : Access → Prop) (memory : UInt64 → UInt8) (w : World ν) : Prop where
  allowed : ∀ x ∈ w.accesses, allowed x
  changed : ∀ a, w.memory a ≠ memory a → ⟨true, a⟩ ∈ w.accesses

variable {place : Placement} {image : Image} {slot rounds : ℕ}

/-- In a prepared process the translation allows what its tables permit. -/
theorem Access.Permitted.allowed (hslot : slot < slots) (h : image.Valid rounds) (mode : UInt32)
    (command : Option Memory) (old : Process) (other : Frames) {x : Access}
    (hx : x.Permitted (prepare place image.toC slot mode command old).tables buffer length) :
    x.Allowed (place.frames slot (prepare place image.toC slot mode command old).tables other) (place.pml4 slot)
      buffer length := by
  obtain ⟨u, hwalk, huser, hwritable⟩ :=
    (accessible_iff_walk hslot h mode command old other hx.base hx.top).mp hx.accessible
  exact ⟨u, hwalk, huser, fun hwrite ↦ ⟨hwritable hwrite, hx.target hwrite⟩⟩

/-- For every number and every registers of a call, every prepared process and every reachable kernel: user memory is
read only on pages that are present and open to the user, and written only on such pages that are writable, inside the
buffer that the caller passed; no buffer of the kernel is left; a call has an answer unless it waits for a key; and a
rejected call answers -1, with nothing changed but the counter. -/
theorem syscall_checked (platform : Platform ν) (place : Placement) (data : List UInt8) (image : Image)
    (hembed : embed data = .ok image) (slot : ℕ) (hslot : slot < slots) (mode : UInt32) (command : Option Memory)
    (old : Process) (other : Frames) (k : Kernel ν) (hk : Reachable platform k) (memory : UInt64 → UInt8)
    (text name : Memory) (f : InterruptFrame) :
    let p := prepare place image.toC slot mode command old
    let allowed := Access.Allowed (place.frames slot p.tables other) (place.pml4 slot) f.target.1.toNat f.target.2.toNat
    Ensures (syscall platform p text name f) ⟨k, memory, []⟩ (fun _ w ↦ w.Checked allowed memory)
        (fun halt w ↦ halt = .waiting ∧ w.kernel.polls = [] ∧ w.Checked allowed memory) ∧
      ∀ w, switch platform p text name f ⟨k, memory, []⟩ = .error .rejected w →
        syscall platform p text name f ⟨k, memory, []⟩ =
            .ok (-1) ⟨{ k with rejected := k.rejected + 1 }, memory, w.accesses⟩ ∧
          ∀ x ∈ w.accesses, x.write = false := by
  intro p allowed
  have hchecked : ∀ w : World ν, w.Confined p.tables f.target.1.toNat f.target.2.toNat memory →
      w.Checked allowed memory := fun w hw ↦
    ⟨fun x hx ↦ (hw.permitted x hx).allowed hslot (valid_of_embed hembed) mode command old other, hw.changed⟩
  refine ⟨?_, fun w hswitch ↦ syscall_of_rejected hk.sound text name f hswitch⟩
  refine (syscall_confined hk.sound text name f).mono (fun _ w hw ↦ hchecked w hw) ?_
  rintro halt w ⟨hwaiting, hpolls, hw⟩
  exact ⟨hwaiting, hpolls, hchecked w hw⟩

/-- A machine without a network. -/
def idlePlatform : Platform Unit := ⟨fun _ ↦ 0, id, fun _ ↦ id⟩

def idleKernel : Kernel Unit :=
  ⟨Files.fsInit fun _ ↦ ⟨Memory.zero, Memory.zero, 0, false⟩, Gui.Terminal.start fun _ ↦ Gui.ink, Memory.zero, [], (),
    1, 0⟩

def retProcess : Process :=
  prepare initialPlacement (Image.toC ⟨userBase, [0xc3], [⟨0, 1, 1, 0, 5⟩]⟩) 0 0 none usedSlot

/-- The names of the files, into 32 bytes. -/
def filesCall (target : ℕ) : InterruptFrame := ⟨7, UInt64.ofNat target, 32, 0, 0, 0⟩

theorem switch_filesCall_code :
    switch idlePlatform retProcess Memory.zero Memory.zero (filesCall userBase) ⟨idleKernel, fun _ ↦ 0xff, []⟩ =
      .error .rejected ⟨idleKernel, fun _ ↦ 0xff, []⟩ := by
  have hnumber : Usys.ofNumber (filesCall userBase).rax = some .files := by decide +kernel
  have hsize : ¬ ((32 : UInt64) = 0 ∨ (32 : UInt64).toNat > Files.maxFiles * (Files.maxFilenameLen + 1)) := by decide
  have hrange : userRange (some retProcess) (UInt64.ofNat userBase) 32 true = some false := by decide +kernel
  unfold switch
  rw [hnumber]
  dsimp only
  unfold service checkRange filesCall
  dsimp only
  rw [if_neg hsize, hrange]
  rfl

theorem syscall_filesCall_stack : ∃ w, syscall idlePlatform retProcess Memory.zero Memory.zero
    (filesCall (userStackTop - 32)) ⟨idleKernel, fun _ ↦ 0xff, []⟩ = .ok 0 w ∧
      w.memory (UInt64.ofNat (userStackTop - 32)) = 0 := by
  have hnumber : Usys.ofNumber (filesCall (userStackTop - 32)).rax = some .files := by decide +kernel
  have hsize : ¬ ((32 : UInt64) = 0 ∨ (32 : UInt64).toNat > Files.maxFiles * (Files.maxFilenameLen + 1)) := by decide
  have hrange : userRange (some retProcess) (UInt64.ofNat (userStackTop - 32)) 32 true = some true := by
    decide +kernel
  have hget {α : Type} (f : World Unit → Service Unit α) (w : World Unit) : (get >>= f) w = f w w := rfl
  have hempty : (Files.sysListFilesIn textSize idleKernel.fsFiles Memory.zero (Gui.truncated 32)).map
      (fun r ↦ (r.1, r.2 0)) = some (0, 0) := by decide +kernel
  obtain ⟨⟨n, ob⟩, hlist, hr⟩ := Option.map_eq_some_iff.mp hempty
  obtain ⟨rfl, hzero⟩ := Prod.mk.inj hr
  have hswitch : switch idlePlatform retProcess Memory.zero Memory.zero (filesCall (userStackTop - 32))
      ⟨idleKernel, fun _ ↦ 0xff, []⟩ =
        .ok 0 ⟨idleKernel, Function.update (fun _ ↦ 0xff) (UInt64.ofNat (userStackTop - 32)) (ob 0),
          [⟨true, UInt64.ofNat (userStackTop - 32)⟩]⟩ := by
    unfold switch
    rw [hnumber]
    dsimp only
    unfold service checkRange filesCall
    dsimp only
    rw [if_neg hsize, hrange]
    simp only [ofOption, pure_bind, if_true]
    rw [hget]
    dsimp only
    rw [hlist]
    dsimp only
    rw [textSize_eq]
    rfl
  refine ⟨_, by unfold syscall; rw [hswitch], ?_⟩
  dsimp only
  rw [Function.update_self]
  exact hzero

/-- The code page is refused as a buffer, and the top of the stack is served. -/
theorem syscall_checked_filesCall :
    let start : World Unit := ⟨idleKernel, fun _ ↦ 0xff, []⟩
    let allowed := Access.Allowed (initialPlacement.frames 0 retProcess.tables fun _ _ ↦ 0) (initialPlacement.pml4 0)
      (userStackTop - 32) 32
    (∃ accesses, syscall idlePlatform retProcess Memory.zero Memory.zero (filesCall userBase) start =
        .ok (-1) ⟨{ idleKernel with rejected := idleKernel.rejected + 1 }, fun _ ↦ 0xff, accesses⟩ ∧
      ∀ x ∈ accesses, x.write = false) ∧
    ∃ w, syscall idlePlatform retProcess Memory.zero Memory.zero (filesCall (userStackTop - 32)) start = .ok 0 w ∧
      w.Checked allowed (fun _ ↦ 0xff) ∧ w.memory (UInt64.ofNat (userStackTop - 32)) = 0 := by
  intro start allowed
  have hcode := syscall_checked idlePlatform initialPlacement retFile _ embed_retFile 0 (by decide) 0 none usedSlot
    (fun _ _ ↦ 0) idleKernel (Reachable.start _ _ _ _ _ _) (fun _ ↦ 0xff) Memory.zero Memory.zero (filesCall userBase)
  have hstack := syscall_checked idlePlatform initialPlacement retFile _ embed_retFile 0 (by decide) 0 none usedSlot
    (fun _ _ ↦ 0) idleKernel (Reachable.start _ _ _ _ _ _) (fun _ ↦ 0xff) Memory.zero Memory.zero
    (filesCall (userStackTop - 32))
  obtain ⟨w, hserved, hbyte⟩ := syscall_filesCall_stack
  exact ⟨⟨_, hcode.2 _ switch_filesCall_code⟩, w, hserved, hstack.1.of_ok hserved, hbyte⟩

end JordyOS.Isolation
