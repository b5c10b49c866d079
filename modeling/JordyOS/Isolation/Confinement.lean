import JordyOS.Isolation.Loading
import JordyOS.Machine.AddressSpace

/-!
# What a process can change and learn

The tables of a process lie in the memory that they translate.  Its code in ring 3 never reaches them, so it runs as
on a flat memory of its own: it changes nothing else, and what it does depends on nothing else.
-/

namespace JordyOS.Isolation

open Machine Paging

/-! ## The process in memory -/

/-- Physical memory with the whole structure of a process in its slot. -/
def Placement.loaded (place : Placement) (slot : ℕ) (p : Process) (before : Memory) : Memory := fun a ↦
  if place.process slot ≤ a ∧ a < place.process slot + tablesSize then
    UInt8.ofNat ((p.tables.table ((a - place.process slot) / page) ((a - place.process slot) % page / 8)).toNat /
      256 ^ ((a - place.process slot) % 8))
  else place.ram slot p before a

/-- The tables of a slot stand in memory. -/
def Placement.Holds (place : Placement) (slot : ℕ) (t : PageTables) (m : Memory) : Prop :=
  ∀ k < 8, ∀ i < 512, m.word (place.process slot + k * page + 8 * i) = t.table k i

/-- The bytes behind the pages that a process may write to. -/
def Writable (place : Placement) (image : Image) (slot a : ℕ) : Prop :=
  ∃ mapping ∈ plan place image slot, writable mapping.flags = true ∧ mapping.physical ≤ a ∧
    a < mapping.physical + page

variable {place : Placement} {slot rounds : ℕ} {image : Image} {mode : UInt32} {command : Option Memory}
  {old : Process}
  {t : PageTables} {m n : Memory}

theorem holds_loaded (place : Placement) (slot : ℕ) (p : Process) (before : Memory) :
    place.Holds slot p.tables (place.loaded slot p before) := by
  intro k hk i hi
  have hpage : page = 4096 := rfl
  have hsize : tablesSize = 8 * 4096 := rfl
  unfold Memory.word
  have hbytes : ∀ j < 8, place.loaded slot p before (place.process slot + k * page + 8 * i + j) =
      UInt8.ofNat ((p.tables.table k i).toNat / 256 ^ j) := by
    intro j hj
    have hoffset : place.process slot + k * page + 8 * i + j - place.process slot = k * 4096 + 8 * i + j := by
      rw [hpage]
      omega
    have htable : (k * 4096 + 8 * i + j) / 4096 = k := by omega
    have hentry : (k * 4096 + 8 * i + j) % 4096 / 8 = i := by omega
    have hbyte : (k * 4096 + 8 * i + j) % 8 = j := by omega
    unfold Placement.loaded
    rw [if_pos (by rw [hpage, hsize]; omega), hoffset, hpage, htable, hentry, hbyte]
  have hlt : (p.tables.table k i).toNat < 256 ^ 8 := (p.tables.table k i).toNat_lt.trans_eq (by norm_num)
  rw [Memory.readWord_of_bytes hbytes, Nat.mod_eq_of_lt hlt, UInt64.ofNat_toNat]

/-- The structure of a slot holds its private bytes. -/
theorem loaded_private (p : Process) (before after : Memory) {a : ℕ} (ha : place.Private slot a) :
    place.loaded slot p before a = place.loaded slot p after a := by
  unfold Placement.loaded
  rw [ram_private p before after ha]

/-- The memory management unit reads the tables of the slot. -/
theorem Placement.Holds.walk (h : place.Holds slot t m) (hslot : slot < slots) (v : ℕ) :
    Paging.walk (framesOf m) (place.pml4 slot) v =
      Paging.walk (place.frames slot t (framesOf m)) (place.pml4 slot) v := by
  obtain ⟨haligned, -⟩ := process_bounds place hslot
  refine walkFrom_congr (fun table htable i hi ↦ ?_) v 3 _ haligned
  have hpage : page = 4096 := rfl
  have hsize : tablesSize = 8 * 4096 := rfl
  unfold Placement.frames
  by_cases hinside : place.process slot ≤ table ∧ table < place.process slot + tablesSize
  · rw [if_pos hinside]
    rw [hsize] at hinside
    have hk := h ((table - place.process slot) / page) (by rw [hpage]; omega) i hi
    have hplace : place.process slot + (table - place.process slot) / page * page = table := by
      rw [hpage]
      omega
    rw [hplace] at hk
    exact hk
  · rw [if_neg hinside]

/-- Ring 3 reaches the planned pages, with the planned rights. -/
theorem reach_iff (hslot : slot < slots) (himage : image.Valid rounds)
    (h : place.Holds slot (prepare place image.toC slot mode command old).tables m) {v : ℕ} {u : Translation} :
    reach m (place.pml4 slot) v = some u ↔ ∃ mapping ∈ plan place image slot, v = 2 ^ 18 + mapping.page ∧
      u = ⟨mapping.physical, true, writable mapping.flags, !noExecute mapping.flags⟩ := by
  unfold reach
  rw [Option.ite_none_right_eq_some, Option.filter_eq_some_iff, h.walk hslot]
  constructor
  · rintro ⟨hv, hu, huser⟩
    obtain ⟨mapping, hmem, rfl, -⟩ := exists_mapping hslot himage hv hu huser
    rw [walk_planned mode command old _ hslot himage hmem] at hu
    exact ⟨mapping, hmem, rfl, (Option.some.inj hu).symm⟩
  · rintro ⟨mapping, hmem, rfl, rfl⟩
    have hrange := (sound_of_mem_plan himage hmem).range
    exact ⟨by omega, walk_planned mode command old _ hslot himage hmem, rfl⟩

/-! ## The writable pages -/

theorem private_of_writable (himage : image.Valid rounds) {a : ℕ} (h : Writable place image slot a) :
    place.Private slot a := by
  obtain ⟨mapping, hmem, -, ha⟩ := h
  exact private_of_sound (sound_of_mem_plan himage hmem) ha

/-- The tables are none of the bytes that a process may write to. -/
theorem Placement.Holds.congr (h : place.Holds slot t m) (hslot : slot < slots) (himage : image.Valid rounds)
    (hsame : ∀ a, ¬ Writable place image slot a → n a = m a) : place.Holds slot t n := by
  intro k hk i hi
  rw [← h k hk i hi]
  refine Memory.word_congr fun a hlow hhigh ↦ hsame a fun ha ↦ ?_
  have hpage : page = 4096 := rfl
  have hsize : tablesSize = 8 * 4096 := rfl
  rw [hpage] at hlow hhigh
  refine not_foreign_of_private hslot (private_of_writable himage ha) (Or.inl ⟨by omega, ?_⟩)
  rw [hsize]
  omega

/-- The tables of a process are closed. -/
theorem closed_prepare (hslot : slot < slots) (himage : image.Valid rounds)
    (h : place.Holds slot (prepare place image.toC slot mode command old).tables m) :
    Closed (place.pml4 slot) m (Writable place image slot) where
  fixed n hsame v := by
    ext u
    rw [reach_iff hslot himage (h.congr hslot himage hsame), reach_iff hslot himage h]
  owned v u hu hwritable i hi := by
    obtain ⟨mapping, hmem, -, rfl⟩ := (reach_iff hslot himage h).mp hu
    have hpage : page = 4096 := rfl
    refine ⟨mapping, hmem, hwritable, Nat.le_add_right _ _, ?_⟩
    rw [hpage]
    exact Nat.add_lt_add_left hi _
  apart first second u w hu hw hne := by
    obtain ⟨mapping, hmem, rfl, rfl⟩ := (reach_iff hslot himage h).mp hu
    obtain ⟨mapping', hmem', rfl, rfl⟩ := (reach_iff hslot himage h).mp hw
    have hsound := sound_of_mem_plan himage hmem
    have hsound' := sound_of_mem_plan himage hmem'
    have hphysical : mapping.physical ≠ mapping'.physical := by
      intro heq
      rw [page_eq_of_physical_eq hsound hsound' heq] at hne
      exact hne rfl
    change mapping.physical + 4096 ≤ mapping'.physical ∨ mapping'.physical + 4096 ≤ mapping.physical
    rw [hsound.physical, hsound'.physical] at hphysical ⊢
    omega

/-- What a process finds does not depend on what memory held before. -/
theorem view_loaded (hslot : slot < slots) (himage : image.Valid rounds) (p : Process)
    (htables : p.tables = (prepare place image.toC slot mode command old).tables) (before after : Memory) :
    view (place.pml4 slot) (place.loaded slot p before) = view (place.pml4 slot) (place.loaded slot p after) := by
  have hholds (m : Memory) : place.Holds slot (prepare place image.toC slot mode command old).tables
      (place.loaded slot p m) := by
    rw [← htables]
    exact holds_loaded place slot p m
  have hreach (v : ℕ) : reach (place.loaded slot p before) (place.pml4 slot) v =
      reach (place.loaded slot p after) (place.pml4 slot) v := by
    ext u
    rw [reach_iff hslot himage (hholds before), reach_iff hslot himage (hholds after)]
  apply Space.ext
  · funext v
    rw [rights_view, rights_view, hreach]
  · funext a
    rw [bytes_view, bytes_view, ← hreach]
    cases hu : reach (place.loaded slot p before) (place.pml4 slot) (a / 4096) with
    | none => rw [Option.elim_none, Option.elim_none]
    | some u =>
      obtain ⟨mapping, hmem, -, rfl⟩ := (reach_iff hslot himage (hholds before)).mp hu
      have hpage : page = 4096 := rfl
      have hinside : mapping.physical ≤ mapping.physical + a % 4096 ∧
          mapping.physical + a % 4096 < mapping.physical + page := by
        rw [hpage]
        omega
      have hprivate : place.Private slot (mapping.physical + a % 4096) :=
        private_of_sound (sound_of_mem_plan himage hmem) hinside
      rw [Option.elim_some, Option.elim_some]
      exact loaded_private p before after hprivate

/-! ## Confinement -/

/-- For every accepted file, slot, mode and command, and every program in ring 3: through its tables, which lie in
the memory that it writes to, it runs as on a flat memory of its own.  It changes bytes behind its writable pages
only, which are private to its slot and never tables, apart from the accessed and dirty bits that the processor sets
there, and its rights stay as they are.  What it does, however far it gets, is the same whatever the rest of memory
holds. -/
theorem process_confined (place : Placement) (data : List UInt8) (image : Image) (hembed : embed data = .ok image)
    (slot : ℕ) (hslot : slot < slots) (mode : UInt32) (command : Option Memory) (old : Process) {σ : Type} (p : Code σ)
    (rounds : ℕ) (s : σ) (before after : Memory) :
    let root := place.pml4 slot
    let start := place.loaded slot (prepare place image.toC slot mode command old)
    let final := p.run (access root) rounds (s, start before)
    final.1 = (p.run Space.access rounds (s, view root (start before))).1 ∧
      view root final.2 = (p.run Space.access rounds (s, view root (start before))).2 ∧
      (∀ a, final.2 a ≠ start before a → Writable place image slot a ∧ place.Private slot a ∧
        ¬ place.Foreign slot a) ∧
      (∀ v, reach final.2 root v = reach (start before) root v) ∧
      (p.run (access root) rounds (s, start after)).1 = final.1 := by
  intro root start final
  have himage := valid_of_embed hembed
  have hclosed (m : Memory) : Closed root (start m) (Writable place image slot) :=
    closed_prepare hslot himage (holds_loaded place slot _ m)
  obtain ⟨hstate, hview, hsame⟩ := (hclosed before).run p rounds s
  refine ⟨hstate, hview, fun a ha ↦ ?_, fun v ↦ (hclosed before).fixed final.2 hsame v, ?_⟩
  · have hwritable : Writable place image slot a := by
      by_contra hnot
      exact ha (hsame a hnot)
    have hprivate := private_of_writable himage hwritable
    exact ⟨hwritable, hprivate, not_foreign_of_private hslot hprivate⟩
  · calc (p.run (access root) rounds (s, start after)).1
        = (p.run Space.access rounds (s, view root (start after))).1 := ((hclosed after).run p rounds s).1
      _ = (p.run Space.access rounds (s, view root (start before))).1 := by
          rw [view_loaded hslot himage _ rfl after before]
      _ = final.1 := hstate.symm

/-- A program that stores to the bytes of its startup page in turn. -/
theorem process_confined_retFile :
    let root := initialPlacement.pml4 0
    let start := initialPlacement.loaded 0
      (prepare initialPlacement (Image.toC ⟨userBase, [0xc3], [⟨0, 1, 1, 0, 5⟩]⟩) 0 0 none usedSlot)
    let p : Code ℕ := ⟨fun i ↦ .store (userStartup + i) 7, fun i _ ↦ i + 1⟩
    let final := p.run (access root) 5 (0, start fun _ ↦ 0)
    final.1 = (p.run Space.access 5 (0, view root (start fun _ ↦ 0))).1 ∧
      view root final.2 = (p.run Space.access 5 (0, view root (start fun _ ↦ 0))).2 ∧
      (∀ a, final.2 a ≠ start (fun _ ↦ 0) a →
        Writable initialPlacement ⟨userBase, [0xc3], [⟨0, 1, 1, 0, 5⟩]⟩ 0 a ∧ initialPlacement.Private 0 a ∧
          ¬ initialPlacement.Foreign 0 a) ∧
      (∀ v, reach final.2 root v = reach (start fun _ ↦ 0) root v) ∧
      (p.run (access root) 5 (0, start fun _ ↦ 0xff)).1 = final.1 :=
  process_confined initialPlacement retFile _ embed_retFile 0 (by decide) 0 none usedSlot
    ⟨fun i ↦ .store (userStartup + i) 7, fun i _ ↦ i + 1⟩ 5 0 (fun _ ↦ 0) fun _ ↦ 0xff

end JordyOS.Isolation
