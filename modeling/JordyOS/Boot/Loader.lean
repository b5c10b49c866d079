import Mathlib.Computability.StateTransition
import Mathlib.Data.List.Range
import Mathlib.Data.Nat.Notation
import Mathlib.Tactic.Common

/-!
# The boot loader

`bootloader.asm` between its labels, over a drive with 18 sectors a track and two heads.  The drive decides which
calls fail, and a call that fails may leave anything in the buffer.  A read is recorded with the sector that the
registers address, so that what the loader does can be compared with a linear read.
-/

namespace JordyOS.Boot

open StateTransition

/-! ## The drive -/

/-- The floppy, byte by byte, and the read calls. -/
structure Bios where
  disk : ℕ → UInt8
  fails : ℕ → Bool
  /-- What a call that fails leaves in the buffer. -/
  leaves : ℕ → ℕ → UInt8

/-- The linear number of the sector that `CH`, `CL` and `DH` address. -/
def sectorNumber (ch cl dh : ℕ) : ℕ := ((ch + 256 * (cl / 64)) * 2 + dh) * 18 + cl % 64 - 1

/-- One sector is put into memory. -/
def store (memory : ℕ → UInt8) (address : ℕ) (data : ℕ → UInt8) : ℕ → UInt8 :=
  fun k ↦ if address ≤ k ∧ k < address + 512 then data (k - address) else memory k

/-- A call that has succeeded. -/
structure Read where
  sector : ℕ
  address : ℕ
  deriving DecidableEq

/-! ## The loader -/

/-- Where the loader stands; `kernel` is `0x1000:0`. -/
inductive Label
  | next
  | retry
  | loaded
  | advance
  | halt
  | kernel
  deriving DecidableEq

structure Loader where
  label : Label
  es : ℕ
  remaining : ℕ
  sector : ℕ
  head : ℕ
  cylinder : ℕ
  retries : ℕ
  memory : ℕ → UInt8
  calls : ℕ
  reads : List Read

variable (bios : Bios) (sectors : ℕ) (memory : ℕ → UInt8)

/-- The loader in front of `.next`. -/
def start : Loader := ⟨.next, 0x1000, sectors, 2, 0, 0, 0, memory, 0, []⟩

/-- `dec` on a byte and on a word. -/
def decByte (n : ℕ) : ℕ := (n + 255) % 256

def decWord (n : ℕ) : ℕ := (n + 65535) % 65536

/-- `jnz` behind one of them. -/
def jnz (n : ℕ) (target behind : Label) : Label := if n ≠ 0 then target else behind

/-- A read call that fails, with the reset of the drive behind it. -/
def Loader.failed (s : Loader) : Loader :=
  let retries := decByte s.retries
  { s with
    memory := store s.memory (16 * s.es) (bios.leaves s.calls), calls := s.calls + 1, retries := retries
    label := jnz retries .retry .halt }

/-- A read call that succeeds. -/
def Loader.received (s : Loader) : Loader :=
  let number := sectorNumber s.cylinder s.sector s.head
  { s with
    memory := store s.memory (16 * s.es) fun k ↦ bios.disk (512 * number + k)
    calls := s.calls + 1, reads := s.reads ++ [⟨number, 16 * s.es⟩], label := .loaded }

/-- The code at `.loaded`. -/
def Loader.forward (s : Loader) : Loader :=
  let s := { s with es := (s.es + 0x20) % 65536, sector := (s.sector + 1) % 256, label := .advance }
  if s.sector ≠ 19 then s
  else
    let s := { s with sector := 1, head := s.head ^^^ 1 }
    if s.head ≠ 0 then s else { s with cylinder := (s.cylinder + 1) % 256 }

/-- The code at `.advance`. -/
def Loader.countDown (s : Loader) : Loader :=
  let remaining := decWord s.remaining
  { s with remaining := remaining, label := jnz remaining .next .kernel }

/-- From one label to the next one. -/
def step (s : Loader) : Option Loader :=
  match s.label with
  | .next => some { s with retries := 3, label := .retry }
  | .retry => some (if bios.fails s.calls then s.failed bios else s.received bios)
  | .loaded => some s.forward
  | .advance => some s.countDown
  | .halt => none
  | .kernel => none

/-! ## A linear read -/

/-- The first `n` sectors of the kernel behind one another. -/
def linear (n : ℕ) : List Read := (List.range n).map fun i ↦ ⟨i + 1, 0x10000 + 512 * i⟩

/-- How many of the first `calls` calls succeed. -/
def successes (fails : ℕ → Bool) (calls : ℕ) : ℕ := (List.range calls).countP fun i ↦ !fails i

/-- The three calls from `call` on fail. -/
def Streak (fails : ℕ → Bool) (call : ℕ) : Prop :=
  fails call = true ∧ fails (call + 1) = true ∧ fails (call + 2) = true

/-- One of the first `sectors` sectors fails three times in a row. -/
def FailsThrice (fails : ℕ → Bool) (sectors : ℕ) : Prop :=
  ∃ call, successes fails call < sectors ∧ Streak fails call

/-- What has been loaded before the sector with index `i`, after `calls` calls. -/
structure Loaded (i : ℕ) (s : Loader) : Prop where
  es : s.es = 0x1000 + 0x20 * i
  remaining : s.remaining = sectors - i
  sector : s.sector = (i + 1) % 18 + 1
  head : s.head = (i + 1) / 18 % 2
  cylinder : s.cylinder = (i + 1) / 36
  reads : s.reads = linear i
  contents : ∀ k < 512 * i, s.memory (0x10000 + k) = bios.disk (512 + k)
  count : successes bios.fails s.calls = i

variable {bios sectors memory} {i n : ℕ} {s : Loader}

theorem linear_succ (n : ℕ) : linear (n + 1) = linear n ++ [⟨n + 1, 0x10000 + 512 * n⟩] := by
  rw [linear, List.range_succ, List.map_append]
  rfl

theorem successes_succ (fails : ℕ → Bool) (calls : ℕ) :
    successes fails (calls + 1) = successes fails calls + if fails calls then 0 else 1 := by
  rw [successes, List.range_succ, List.countP_append]
  cases hfails : fails calls <;> simp [successes, hfails]

theorem successes_mono (fails : ℕ → Bool) {first second : ℕ} (h : first ≤ second) :
    successes fails first ≤ successes fails second :=
  (List.range_sublist.mpr h).countP_le

theorem start_loaded : Loaded bios sectors 0 (start sectors memory) :=
  ⟨rfl, rfl, rfl, rfl, rfl, rfl, nofun, rfl⟩

/-- The registers address the sector that is next in line. -/
theorem Loaded.number (h : Loaded bios sectors i s) (hi : i < 896) :
    sectorNumber s.cylinder s.sector s.head = i + 1 := by
  rw [sectorNumber, h.cylinder, h.sector, h.head]
  omega

/-! ## One sector -/

theorem store_of_lt {address k : ℕ} (h : k < address) (data : ℕ → UInt8) : store memory address data k = memory k :=
  if_neg (by omega)

theorem store_add {address k : ℕ} (h : k < 512) (data : ℕ → UInt8) :
    store memory address data (address + k) = data k := by
  rw [store, if_pos (by omega), Nat.add_sub_cancel_left]

theorem Loaded.address (h : Loaded bios sectors i s) : 16 * s.es = 0x10000 + 512 * i := by
  rw [h.es]
  omega

/-- A call that fails touches nothing that is loaded. -/
theorem Loaded.failed (h : Loaded bios sectors i s) (hfails : bios.fails s.calls = true) :
    Loaded bios sectors i (s.failed bios) := by
  unfold Loader.failed
  refine ⟨h.es, h.remaining, h.sector, h.head, h.cylinder, h.reads, fun k hk ↦ ?_, ?_⟩
  · change store s.memory (16 * s.es) _ (0x10000 + k) = _
    rw [h.address, store_of_lt (by omega)]
    exact h.contents k hk
  · change successes bios.fails (s.calls + 1) = i
    rw [successes_succ, if_pos hfails]
    exact h.count

theorem failed_label (s : Loader) : (s.failed bios).label = jnz (decByte s.retries) .retry .halt := by
  rw [Loader.failed]

theorem failed_retries (s : Loader) : (s.failed bios).retries = decByte s.retries := by
  rw [Loader.failed]

theorem failed_calls (s : Loader) : (s.failed bios).calls = s.calls + 1 := by
  rw [Loader.failed]

theorem forward_label (s : Loader) : s.forward.label = .advance := by
  unfold Loader.forward
  dsimp only
  split
  · rfl
  · split <;> rfl

theorem forward_calls (s : Loader) : s.forward.calls = s.calls := by
  unfold Loader.forward
  dsimp only
  split
  · rfl
  · split <;> rfl

theorem countDown_calls (s : Loader) : s.countDown.calls = s.calls := by
  rw [Loader.countDown]

theorem countDown_label (s : Loader) :
    s.countDown.label = jnz s.countDown.remaining .next .kernel := by
  rw [Loader.countDown]

/-- The three counters of a sector are moved on together. -/
theorem forward_eq (s : Loader) (hsector : s.sector = (i + 1) % 18 + 1) (hhead : s.head = (i + 1) / 18 % 2)
    (hcylinder : s.cylinder = (i + 1) / 36) (hi : i < 896) :
    s.forward = { s with
      es := (s.es + 0x20) % 65536, sector := (i + 2) % 18 + 1, head := (i + 2) / 18 % 2, cylinder := (i + 2) / 36
      label := .advance } := by
  have hnext : (s.sector + 1) % 256 = (i + 1) % 18 + 2 := by omega
  unfold Loader.forward
  dsimp only
  rw [hnext]
  by_cases hlast : (i + 1) % 18 + 2 = 19
  swap
  · have hsame : (i + 2) % 18 + 1 = (i + 1) % 18 + 2 ∧ (i + 2) / 18 % 2 = (i + 1) / 18 % 2 ∧
        (i + 2) / 36 = (i + 1) / 36 := by omega
    rw [if_pos hlast, hsame.1, hsame.2.1, hsame.2.2, ← hhead, ← hcylinder]
  rw [if_neg (not_not.mpr hlast)]
  rcases Nat.mod_two_eq_zero_or_one ((i + 1) / 18) with hzero | hone
  · have hturned : (i + 2) % 18 + 1 = 1 ∧ (i + 2) / 18 % 2 = 1 ∧ (i + 2) / 36 = (i + 1) / 36 := by omega
    rw [hhead, hzero, if_pos (by decide), hturned.1, hturned.2.1, hturned.2.2, hcylinder]
    rfl
  · have hturned : (i + 2) % 18 + 1 = 1 ∧ (i + 2) / 18 % 2 = 0 ∧ (i + 2) / 36 = ((i + 1) / 36 + 1) % 256 := by omega
    rw [hhead, hone, if_neg (by decide), hturned.1, hturned.2.1, hturned.2.2, hcylinder]
    rfl

/-- A call that succeeds loads the next sector. -/
theorem Loaded.received (h : Loaded bios sectors i s) (hfails : bios.fails s.calls = false) (hi : i < sectors)
    (hsectors : sectors ≤ 896) :
    Loaded bios sectors (i + 1) (s.received bios).forward.countDown ∧
      (s.received bios).forward.countDown.label = if i + 1 < sectors then .next else .kernel := by
  have hforward := forward_eq (s.received bios) h.sector h.head h.cylinder (by omega : i < 896)
  have hes : (s.es + 0x20) % 65536 = 0x1000 + 0x20 * (i + 1) := by
    rw [h.es]
    omega
  have hremaining : decWord s.remaining = sectors - (i + 1) := by
    rw [decWord, h.remaining]
    omega
  have hcount : (s.received bios).forward.countDown.remaining = sectors - (i + 1) := by
    rw [hforward]
    exact hremaining
  refine ⟨⟨?_, hcount, ?_, ?_, ?_, ?_, ?_, ?_⟩, ?_⟩
  · rw [hforward]
    exact hes
  · rw [hforward]
    rfl
  · rw [hforward]
    rfl
  · rw [hforward]
    rfl
  · rw [hforward]
    change s.reads ++ [(⟨sectorNumber s.cylinder s.sector s.head, 16 * s.es⟩ : Read)] = linear (i + 1)
    rw [h.number (by omega), h.address, h.reads, linear_succ]
  · intro k hk
    rw [hforward]
    change store s.memory (16 * s.es) (fun k ↦ bios.disk (512 * sectorNumber s.cylinder s.sector s.head + k))
      (0x10000 + k) = _
    rw [h.address, h.number (by omega)]
    by_cases hold : k < 512 * i
    · rw [store_of_lt (by omega)]
      exact h.contents k hold
    · have hk' : 0x10000 + k = 0x10000 + 512 * i + (k - 512 * i) := by omega
      rw [hk', store_add (by omega)]
      exact congrArg bios.disk (by omega)
  · rw [hforward]
    change successes bios.fails (s.calls + 1) = i + 1
    rw [successes_succ, h.count, hfails]
    rfl
  · rw [countDown_label, hcount, jnz]
    exact if_congr (by omega) rfl rfl

/-! ## Three tries -/

/-- The call that succeeds ends each streak. -/
theorem not_streak_of_succeeds {fails : ℕ → Bool} {first last : ℕ} (hcalm : ∀ call < first, ¬ Streak fails call)
    (hlast : last ≤ first + 2) (hfails : fails last = false) : ∀ call < last + 1, ¬ Streak fails call := by
  intro call hcall hstreak
  by_cases hearly : call < first
  · exact hcalm call hearly hstreak
  have hcases : last = call ∨ last = call + 1 ∨ last = call + 2 := by omega
  rcases hcases with rfl | rfl | rfl
  · exact absurd hstreak.1 (by rw [hfails]; decide)
  · exact absurd hstreak.2.1 (by rw [hfails]; decide)
  · exact absurd hstreak.2.2 (by rw [hfails]; decide)

theorem Reaches.single {t : Loader} (h : step bios s = some t) : Reaches (step bios) s t :=
  Relation.ReflTransGen.single h

/-- With `left` tries left, one of them loads the next sector, or all fail and the loader halts. -/
theorem Loaded.tries {left : ℕ} (h : Loaded bios sectors i s) (hi : i < sectors) (hsectors : sectors ≤ 896)
    (hlabel : s.label = jnz left .retry .halt) (hretries : s.retries = left) (hleft : left ≤ 3) :
    (∃ t, Reaches (step bios) s t ∧ Loaded bios sectors (i + 1) t ∧
      t.label = (if i + 1 < sectors then .next else .kernel) ∧
      ∃ call, s.calls ≤ call ∧ call < s.calls + left ∧ bios.fails call = false ∧ t.calls = call + 1) ∨
    ((∀ k < left, bios.fails (s.calls + k) = true) ∧
      ∃ t, Reaches (step bios) s t ∧ t.label = .halt ∧ Loaded bios sectors i t) := by
  induction left generalizing s with
  | zero => exact .inr ⟨nofun, s, .refl, hlabel, h⟩
  | succ left ih =>
    have hcall : step bios s = some (if bios.fails s.calls then s.failed bios else s.received bios) := by
      rw [step, hlabel]
      rfl
    by_cases hfails : bios.fails s.calls = true
    · rw [if_pos hfails] at hcall
      have hdec : decByte s.retries = left := by
        rw [decByte, hretries]
        omega
      rcases ih (h.failed hfails) (by rw [failed_label, hdec]) (by rw [failed_retries, hdec]) (by omega) with
        ⟨t, hreaches, hloaded, ht, call, hfrom, hto, hsucceeds, hcalls⟩ | ⟨hall, t, hreaches, ht, hloaded⟩
      · rw [failed_calls] at hfrom hto
        exact .inl ⟨t, (Reaches.single hcall).trans hreaches, hloaded, ht, call, by omega, by omega, hsucceeds, hcalls⟩
      · refine .inr ⟨fun k hk ↦ ?_, t, (Reaches.single hcall).trans hreaches, ht, hloaded⟩
        cases k with
        | zero => exact hfails
        | succ k =>
          have hk := hall k (by omega)
          rwa [failed_calls, Nat.add_right_comm] at hk
    · rw [if_neg hfails] at hcall
      rw [Bool.not_eq_true] at hfails
      obtain ⟨hloaded, hnext⟩ := h.received hfails hi hsectors
      have hforward : step bios (s.received bios) = some (s.received bios).forward := rfl
      have hcount : step bios (s.received bios).forward = some (s.received bios).forward.countDown := by
        rw [step, forward_label]
      refine .inl ⟨_, ((Reaches.single hcall).trans (Reaches.single hforward)).trans (Reaches.single hcount), hloaded,
        hnext, s.calls, Nat.le_refl _, by omega, hfails, ?_⟩
      rw [countDown_calls, forward_calls]
      rfl

/-- Where the loader is when the sectors before the one with index `i` are loaded. -/
structure Ready (bios : Bios) (sectors i : ℕ) (s : Loader) : Prop where
  loaded : Loaded bios sectors i s
  label : s.label = if i < sectors then .next else .kernel
  /-- No sector has failed three times, and none is failing. -/
  calm : ∀ call < s.calls, ¬ Streak bios.fails call

/-! ## The whole kernel -/

theorem start_ready (hsectors : 0 < sectors) : Ready bios sectors 0 (start sectors memory) :=
  ⟨start_loaded, (if_pos hsectors).symm, nofun⟩

/-- One round of the loader: a sector is loaded, or it fails three times. -/
theorem Ready.round (h : Ready bios sectors i s) (hi : i < sectors) (hsectors : sectors ≤ 896) :
    (∃ t, Reaches (step bios) s t ∧ Ready bios sectors (i + 1) t) ∨
    (Streak bios.fails s.calls ∧ ∃ t, Reaches (step bios) s t ∧ t.label = .halt ∧ Loaded bios sectors i t) := by
  have hretry : step bios s = some { s with retries := 3, label := .retry } := by
    rw [step, h.label, if_pos hi]
  have hloaded : Loaded bios sectors i { s with retries := 3, label := .retry } :=
    ⟨h.loaded.es, h.loaded.remaining, h.loaded.sector, h.loaded.head, h.loaded.cylinder, h.loaded.reads,
      h.loaded.contents, h.loaded.count⟩
  rcases hloaded.tries hi hsectors rfl rfl (Nat.le_refl 3) with
    ⟨t, hreaches, ht, hlabel, call, hfrom, hto, hsucceeds, hcalls⟩ | ⟨hall, t, hreaches, hlabel, ht⟩
  · refine .inl ⟨t, (Reaches.single hretry).trans hreaches, ht, hlabel, ?_⟩
    rw [hcalls]
    exact not_streak_of_succeeds h.calm (Nat.le_of_lt_succ hto) hsucceeds
  · have hfails (k : ℕ) (hk : k < 3) : bios.fails (s.calls + k) = true := hall k hk
    exact .inr ⟨⟨hfails 0 (by decide), hfails 1 (by decide), hfails 2 (by decide)⟩, t,
      (Reaches.single hretry).trans hreaches, hlabel, ht⟩

/-- The loader loads all sectors, or halts at the first one that fails three times. -/
theorem Ready.rounds (hsectors : sectors ≤ 896) {left : ℕ} (hleft : i + left = sectors)
    (h : Ready bios sectors i s) :
    (∃ t, Reaches (step bios) s t ∧ Ready bios sectors sectors t) ∨
    (FailsThrice bios.fails sectors ∧
      ∃ t, Reaches (step bios) s t ∧ t.label = .halt ∧ ∃ j < sectors, Loaded bios sectors j t) := by
  induction left generalizing i s with
  | zero =>
    obtain rfl : i = sectors := hleft
    exact .inl ⟨s, .refl, h⟩
  | succ left ih =>
    have hi : i < sectors := by omega
    rcases h.round hi hsectors with ⟨t, hreaches, ht⟩ | ⟨hstreak, t, hreaches, hlabel, ht⟩
    · rcases ih (by omega) ht with ⟨u, hu, hready⟩ | ⟨hfails, u, hu, hhalt⟩
      · exact .inl ⟨u, hreaches.trans hu, hready⟩
      · exact .inr ⟨hfails, u, hreaches.trans hu, hhalt⟩
    · refine .inr ⟨⟨s.calls, ?_, hstreak⟩, t, hreaches, hlabel, i, hi, ht⟩
      rw [h.loaded.count]
      exact hi

/-- When all sectors are loaded, none of them has failed three times. -/
theorem Ready.not_failsThrice (h : Ready bios sectors sectors s) : ¬ FailsThrice bios.fails sectors := by
  rintro ⟨call, hcount, hstreak⟩
  by_cases hearly : call < s.calls
  · exact h.calm call hearly hstreak
  · have hmono := successes_mono bios.fails (Nat.le_of_not_lt hearly)
    rw [h.loaded.count] at hmono
    omega

/-- No read crosses a boundary of 64 KiB. -/
theorem within_of_mem_linear {read : Read} (h : read ∈ linear n) :
    read.address / 65536 = (read.address + 511) / 65536 := by
  obtain ⟨i, -, rfl⟩ := List.mem_map.mp h
  dsimp only
  omega

/-- The loader reads the kernel in order and jumps to it; it halts if a sector fails three times in a row. -/
theorem start_eval (bios : Bios) (sectors : ℕ) (memory : ℕ → UInt8) (hpos : 0 < sectors) (hsectors : sectors ≤ 896) :
    (¬ FailsThrice bios.fails sectors → ∃ s ∈ eval (step bios) (start sectors memory),
      s.label = .kernel ∧ s.reads = linear sectors ∧
      (∀ read ∈ s.reads, read.address / 65536 = (read.address + 511) / 65536) ∧
      ∀ k < 512 * sectors, s.memory (0x10000 + k) = bios.disk (512 + k)) ∧
    (FailsThrice bios.fails sectors → (∃ s ∈ eval (step bios) (start sectors memory), s.label = .halt) ∧
      ∀ s, Reaches (step bios) (start sectors memory) s → s.label ≠ .kernel) := by
  have hready : Ready bios sectors 0 (start sectors memory) := start_ready hpos
  rcases hready.rounds hsectors (Nat.zero_add sectors) with
    ⟨s, hreaches, hs⟩ | ⟨hfails, s, hreaches, hlabel, hs⟩
  · have hlabel : s.label = .kernel := hs.label.trans (if_neg (Nat.lt_irrefl _))
    have hstop : step bios s = none := by rw [step, hlabel]
    refine ⟨fun _ ↦ ⟨s, mem_eval.mpr ⟨hreaches, hstop⟩, hlabel, hs.loaded.reads, ?_, hs.loaded.contents⟩,
      fun hfails ↦ absurd hfails hs.not_failsThrice⟩
    rw [hs.loaded.reads]
    exact fun read hread ↦ within_of_mem_linear hread
  · have hstop : step bios s = none := by rw [step, hlabel]
    have hmem := mem_eval.mpr ⟨hreaches, hstop⟩
    refine ⟨fun hnever ↦ absurd hfails hnever, fun _ ↦ ⟨⟨s, hmem, hlabel⟩, fun t ht hkernel ↦ ?_⟩⟩
    have hother : step bios t = none := by rw [step, hkernel]
    obtain rfl : s = t := Part.mem_unique hmem (mem_eval.mpr ⟨ht, hother⟩)
    rw [hlabel] at hkernel
    exact absurd hkernel (by decide)

/-- The second call fails, and the kernel takes more than a cylinder. -/
theorem start_eval_transient :
    ∃ s ∈ eval (step ⟨fun _ ↦ 0, fun call ↦ call == 1, fun _ _ ↦ 0⟩) (start 40 fun _ ↦ 0),
      s.label = .kernel ∧ s.reads = linear 40 := by
  obtain ⟨s, hs, hlabel, hreads, -⟩ := (start_eval ⟨fun _ ↦ 0, fun call ↦ call == 1, fun _ _ ↦ 0⟩ 40
    (fun _ ↦ 0) (by decide) (by decide)).1 fun ⟨call, _, hfirst, hsecond, _⟩ ↦ by
      rw [beq_iff_eq] at hfirst hsecond
      omega
  exact ⟨s, hs, hlabel, hreads⟩

end JordyOS.Boot
