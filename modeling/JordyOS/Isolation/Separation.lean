import JordyOS.Isolation.Tables

/-!
# What a process can reach

The walk of the memory management unit through the tables of a process.  Whatever the rest of physical
memory holds, the pages that a process reaches are those of its plan, and the memory behind them is its
own.
-/

namespace JordyOS.Isolation

open Machine Paging

/-! ## The tables in memory -/

/-- The eight pages of `PageTables` in order. -/
def PageTables.table (t : PageTables) : ℕ → ℕ → UInt64
  | 0 => t.pml4
  | 1 => t.pdpt
  | 2 => t.pd
  | i + 3 => t.pt i

/-- Physical memory with the tables of a process in their place. -/
def Placement.frames (place : Placement) (slot : ℕ) (t : PageTables) (other : Frames) : Frames :=
  fun address ↦
    if place.process slot ≤ address ∧ address < place.process slot + tablesSize then
      t.table ((address - place.process slot) / page)
    else other address

variable {place : Placement} {slot rounds : ℕ} {image : Image} {t : PageTables} {other : Frames}

theorem frames_table (place : Placement) (slot : ℕ) (t : PageTables) (other : Frames) {k : ℕ} (hk : k < 8) :
    place.frames slot t other (place.process slot + k * page) = t.table k := by
  have hpage : page = 4096 := rfl
  have hsize : tablesSize = 8 * 4096 := rfl
  unfold Placement.frames
  rw [hpage, if_pos (by omega), Nat.add_sub_cancel_left, Nat.mul_div_cancel k (by decide)]

theorem frames_pml4 : place.frames slot t other (place.pml4 slot) = t.pml4 := by
  have h := frames_table place slot t other (k := 0) (by decide)
  rw [Nat.zero_mul, Nat.add_zero] at h
  exact h

theorem frames_pdpt : place.frames slot t other (place.pdpt slot) = t.pdpt := by
  have h := frames_table place slot t other (k := 1) (by decide)
  rw [Nat.one_mul] at h
  exact h

theorem frames_pd : place.frames slot t other (place.pd slot) = t.pd := by
  have h := frames_table place slot t other (k := 2) (by decide)
  exact h

theorem frames_pt {i : ℕ} (hi : i < 5) : place.frames slot t other (place.pt slot i) = t.pt i := by
  have h := frames_table place slot t other (k := i + 3) (by omega)
  rw [Nat.add_comm i 3] at h
  unfold Placement.pt
  rw [h, Nat.add_comm 3 i]
  rfl

/-- A process lies below 32 MiB. -/
theorem process_bounds (place : Placement) {slot : ℕ} (hslot : slot < slots) :
    place.process slot % 4096 = 0 ∧ place.process slot + processSize ≤ 0x02000000 := by
  have haligned : place.processes % 4096 = 0 := place.aligned
  have hbelow : place.processes + 2 * 8687616 ≤ 0x02000000 := place.below
  have hslots : slots = 2 := rfl
  change (place.processes + slot * 8687616) % 4096 = 0 ∧
    place.processes + slot * 8687616 + 8687616 ≤ 0x02000000
  omega

theorem isFrame_ofNat {a : ℕ} (haligned : a % 4096 = 0) (hbelow : a < 0x02000000) :
    IsFrame (UInt64.ofNat a) ∧ (UInt64.ofNat a).toNat = a := by
  have hnat : (UInt64.ofNat a).toNat = a := by
    refine UInt64.toNat_ofNat_of_lt' ?_
    change a < 2 ^ 64
    omega
  exact ⟨⟨by rw [hnat]; exact haligned, by rw [hnat]; omega⟩, hnat⟩

/-! ## Entries -/

/-- An entry that points to the table at `a`. -/
def link (a : ℕ) : UInt64 := UInt64.ofNat a ||| P ||| W ||| U

theorem present_link (a : ℕ) : present (link a) = true := by
  have hP : present P = true := by decide
  simp [link, hP]

section
variable {a : ℕ} (haligned : a % 4096 = 0) (hbelow : a < 0x02000000)
include haligned hbelow

theorem large_link : large (link a) = false := by
  have hP : large P = false := by decide
  have hW : large W = false := by decide
  have hU : large U = false := by decide
  simp [link, (isFrame_ofNat haligned hbelow).1.large, hP, hW, hU]

theorem frame_link : frame (link a) = a := by
  obtain ⟨hframe, hnat⟩ := isFrame_ofNat haligned hbelow
  have hP : frame P = 0 := by decide
  have hW : frame W = 0 := by decide
  have hU : frame U = 0 := by decide
  simp [link, hframe.frame, hnat, hP, hW, hU]

/-- A link takes no right away. -/
theorem restrict_link (u : Translation) : u.restrict (link a) = u := by
  have hframe := (isFrame_ofNat haligned hbelow).1
  have hP : noExecute P = false := by decide
  have hW : noExecute W = false := by decide
  have hU : noExecute U = false := by decide
  have huser : user U = true := by decide
  have hwritable : writable W = true := by decide
  cases u
  simp [Translation.restrict, link, hframe.noExecute, hP, hW, hU, huser, hwritable]

end

/-- The walk through a link. -/
theorem walkFrom_link {frames : Frames} {v level table a : ℕ}
    (hentry : frames table (index v (level + 1)) = link a) (haligned : a % 4096 = 0)
    (hbelow : a < 0x02000000) :
    walkFrom frames v (level + 1) table = walkFrom frames v level a := by
  rw [walkFrom_succ (by rw [hentry, present_link]) (by rw [hentry, large_link haligned hbelow]),
    hentry, frame_link haligned hbelow]
  cases walkFrom frames v level a with
  | none => rfl
  | some u => rw [Option.map_some, restrict_link haligned hbelow]

/-- A loop that writes an array in order. -/
theorem foldl_update_range {α : Type} (f : ℕ → α) (start : ℕ → α) (n i : ℕ) :
    (List.range n).foldl (fun a k ↦ Function.update a k (f k)) start i = if i < n then f i else start i := by
  induction n with
  | zero => rfl
  | succ n ih =>
    rw [List.range_succ, List.foldl_append, List.foldl_cons, List.foldl_nil]
    by_cases hi : i = n
    · rw [hi, Function.update_self, if_pos (Nat.lt_succ_self n)]
    · rw [Function.update_of_ne hi, ih]
      congr 1
      exact propext (by omega)

theorem linked_pd (pt : ℕ → ℕ → UInt64) (i : ℕ) :
    (linked place slot pt).pd i = if i < 5 then link (place.pt slot i) else 0 :=
  foldl_update_range (fun k ↦ link (place.pt slot k)) (fun _ ↦ 0) 5 i

/-! ## The walk -/

theorem present_zero : present 0 = false := by decide

section
variable {pt : ℕ → ℕ → UInt64} (hslot : slot < slots)
include hslot

/-- The first table: only its first entry leads on. -/
theorem walk_pml4 {v : ℕ} (hv : v < 2 ^ 36) :
    walk (place.frames slot (linked place slot pt) other) (place.pml4 slot) v =
      if v < 2 ^ 27 then
        walkFrom (place.frames slot (linked place slot pt) other) v 2 (place.pdpt slot)
      else none := by
  obtain ⟨haligned, hbelow⟩ := process_bounds place hslot
  have hsize : processSize = 8687616 := rfl
  by_cases hlow : v < 2 ^ 27
  · have hindex : index v 3 = 0 := by
      change v / 512 ^ 3 % 512 = 0
      omega
    have hpdpt : place.pdpt slot = place.process slot + 4096 := rfl
    rw [if_pos hlow]
    refine walkFrom_link ?_ (by omega) (by omega)
    rw [frames_pml4, hindex]
    rfl
  · have hindex : index v 3 ≠ 0 := by
      change v / 512 ^ 3 % 512 ≠ 0
      omega
    rw [if_neg hlow]
    refine walkFrom_of_not_present ?_
    rw [frames_pml4]
    change present (Function.update (fun _ ↦ (0 : UInt64)) 0 (link (place.pdpt slot)) (index v 3)) = false
    rw [Function.update_of_ne hindex, present_zero]

/-- The second table: its first entry is the supervisor's, its second leads on. -/
theorem walk_pdpt {v : ℕ} (hv : v < 2 ^ 27) (huser : 2 ^ 18 ≤ v) :
    walkFrom (place.frames slot (linked place slot pt) other) v 2 (place.pdpt slot) =
      if v < 2 ^ 19 then
        walkFrom (place.frames slot (linked place slot pt) other) v 1 (place.pd slot)
      else none := by
  obtain ⟨haligned, hbelow⟩ := process_bounds place hslot
  have hsize : processSize = 8687616 := rfl
  by_cases hlow : v < 2 ^ 19
  · have hindex : index v 2 = 1 := by
      change v / 512 ^ 2 % 512 = 1
      omega
    have hpd : place.pd slot = place.process slot + 2 * 4096 := rfl
    rw [if_pos hlow]
    refine walkFrom_link ?_ (by omega) (by omega)
    rw [frames_pdpt, hindex]
    rfl
  · have hindex : index v 2 ≠ 0 ∧ index v 2 ≠ 1 := by
      change v / 512 ^ 2 % 512 ≠ 0 ∧ v / 512 ^ 2 % 512 ≠ 1
      omega
    rw [if_neg hlow]
    refine walkFrom_of_not_present ?_
    rw [frames_pdpt]
    have hentry : (linked place slot pt).pdpt (index v 2) = 0 :=
      (Function.update_of_ne hindex.2 _ _).trans (Function.update_of_ne hindex.1 _ _)
    rw [hentry, present_zero]

/-- The directory: its first five entries lead to the leaves. -/
theorem walk_pd {r : ℕ} (hr : r < 2 ^ 18) :
    walkFrom (place.frames slot (linked place slot pt) other) (2 ^ 18 + r) 1 (place.pd slot) =
      if r < 2560 ∧ present (leaf pt r) then
        some ⟨frame (leaf pt r), user (leaf pt r), writable (leaf pt r), !noExecute (leaf pt r)⟩
      else none := by
  obtain ⟨haligned, hbelow⟩ := process_bounds place hslot
  have hsize : processSize = 8687616 := rfl
  have hindex : index (2 ^ 18 + r) 1 = r / 512 := by
    change (2 ^ 18 + r) / 512 ^ 1 % 512 = r / 512
    omega
  have hentry : place.frames slot (linked place slot pt) other (place.pd slot)
      (index (2 ^ 18 + r) 1) = if r / 512 < 5 then link (place.pt slot (r / 512)) else 0 := by
    rw [frames_pd, hindex]
    exact linked_pd pt _
  by_cases hlow : r < 2560
  · have hrow : r / 512 < 5 := by omega
    have hpt : place.pt slot (r / 512) = place.process slot + (3 + r / 512) * 4096 := rfl
    rw [if_pos hrow] at hentry
    rw [walkFrom_link hentry (by omega) (by omega)]
    have hplace : index (2 ^ 18 + r) 0 = r % 512 := by
      change (2 ^ 18 + r) / 1 % 512 = r % 512
      omega
    have hleaf : place.frames slot (linked place slot pt) other (place.pt slot (r / 512))
        (index (2 ^ 18 + r) 0) = leaf pt r := by
      rw [frames_pt hrow, hplace]
      rfl
    by_cases hpresent : present (leaf pt r) = true
    · rw [if_pos ⟨hlow, hpresent⟩, walkFrom_zero (by rw [hleaf]; exact hpresent), hleaf]
    · rw [if_neg fun h ↦ hpresent h.2]
      refine walkFrom_of_not_present ?_
      rw [hleaf]
      exact Bool.eq_false_iff.mpr hpresent
  · rw [if_neg fun h ↦ hlow h.1]
    refine walkFrom_of_not_present ?_
    rw [hentry, if_neg (by omega), present_zero]

/-- Pages of the user directory are translated by their leaf entry. -/
theorem walk_leaf {r : ℕ} (hr : r < 2 ^ 18) :
    walk (place.frames slot (linked place slot pt) other) (place.pml4 slot) (2 ^ 18 + r) =
      if r < 2560 ∧ present (leaf pt r) then
        some ⟨frame (leaf pt r), user (leaf pt r), writable (leaf pt r), !noExecute (leaf pt r)⟩
      else none := by
  rw [walk_pml4 hslot (by omega), if_pos (by omega), walk_pdpt hslot (by omega) (by omega),
    if_pos (by omega), walk_pd hslot hr]

/-- Outside the user directory nothing is user-accessible. -/
theorem walk_outside {v : ℕ} (hv : v < 2 ^ 36) (hout : v < 2 ^ 18 ∨ 2 ^ 19 ≤ v) {u : Translation}
    (hu : walk (place.frames slot (linked place slot pt) other) (place.pml4 slot) v = some u) :
    u.user = false := by
  rw [walk_pml4 hslot hv, Option.ite_none_right_eq_some] at hu
  obtain ⟨hlow, hu⟩ := hu
  rcases hout with hkernel | habove
  · refine walkFrom_supervisor ?_ hu
    have hindex : index v 2 = 0 := by
      change v / 512 ^ 2 % 512 = 0
      omega
    have hkernel : user (0x82000 ||| P ||| W) = false := by decide
    rw [frames_pdpt, hindex]
    exact hkernel
  · rw [walk_pdpt hslot hlow (by omega), if_neg (by omega)] at hu
    cases hu

end

/-! ## The leaves of a plan -/

/-- What a planned page is translated to. -/
theorem leaf_entry (hslot : slot < slots) {m : Mapping} (h : m.Sound place slot) :
    m.page < 2560 ∧ present m.entry = true ∧ user m.entry = true ∧ frame m.entry = m.physical ∧
      writable m.entry = writable m.flags ∧ noExecute m.entry = noExecute m.flags := by
  obtain ⟨haligned, hbelow⟩ := process_bounds place hslot
  have hsize : processSize = 8687616 := rfl
  have hmemory : place.memory slot = place.process slot + 32768 := rfl
  have hrange := h.range
  have hphysical := h.physical
  have hbacking : backing m.page < 2113 := by
    unfold backing
    split
    · omega
    · omega
  obtain ⟨hframe, hnat⟩ := isFrame_ofNat (a := m.physical) (by omega) (by omega)
  have hP : present P = true ∧ user P = false ∧ writable P = false ∧ noExecute P = false ∧ frame P = 0 := by
    decide
  have hU : present U = false ∧ user U = true ∧ writable U = false ∧ noExecute U = false ∧ frame U = 0 := by
    decide
  have hflags : frame m.flags = 0 := by
    rcases h.flags with hflags | hflags | hflags
    · rw [hflags]
      decide
    · rw [hflags]
      decide
    · rw [hflags]
      decide
  refine ⟨by omega, ?_, ?_, ?_, ?_, ?_⟩
  · simp [Mapping.entry, hP.1]
  · simp [Mapping.entry, hU.2.1]
  · simp [Mapping.entry, hframe.frame, hnat, hP.2.2.2.2, hU.2.2.2.2, hflags]
  · simp [Mapping.entry, hP.2.2.1, hU.2.2.1, hframe]
  · simp [Mapping.entry, hP.2.2.2.1, hU.2.2.2.1, hframe]

/-- No planned page is writable and executable. -/
theorem Mapping.Sound.rights {m : Mapping} (h : m.Sound place slot) :
    ¬ (writable m.flags = true ∧ (!noExecute m.flags) = true) := by
  rcases h.flags with hflags | hflags | hflags
  · rw [hflags]
    decide
  · rw [hflags]
    decide
  · rw [hflags]
    decide

variable {mode : UInt32} {command : Option Memory} {old : Process}

/-- Every user-accessible translation comes from the plan. -/
theorem exists_mapping (hslot : slot < slots) (h : image.Valid rounds) {v : ℕ} (hv : v < 2 ^ 36)
    {u : Translation}
    (hu : walk (place.frames slot (prepare place image.toC slot mode command old).tables other)
      (place.pml4 slot) v = some u) (huser : u.user = true) :
    ∃ m ∈ plan place image slot, v = 2 ^ 18 + m.page ∧ u.frame = m.physical ∧
      ¬ (u.writable = true ∧ u.executable = true) := by
  rw [tables_prepare h] at hu
  have hinside : 2 ^ 18 ≤ v ∧ v < 2 ^ 19 := by
    by_contra hout
    have hfalse := walk_outside hslot hv (by omega) hu
    rw [huser] at hfalse
    cases hfalse
  obtain ⟨r, rfl⟩ := Nat.exists_eq_add_of_le hinside.1
  rw [walk_leaf hslot (by omega), Option.ite_none_right_eq_some, Option.some.injEq] at hu
  obtain ⟨⟨-, hpresent⟩, rfl⟩ := hu
  by_cases hplanned : ∃ m ∈ plan place image slot, m.page = r
  · obtain ⟨m, hm, rfl⟩ := hplanned
    have hsound := sound_of_mem_plan h hm
    obtain ⟨-, -, -, hframe, hwritable, hexecute⟩ := leaf_entry hslot hsound
    rw [leaf_foldl_of_mem (pairwise_plan h) hm, hwritable, hexecute]
    exact ⟨m, hm, rfl, hframe, hsound.rights⟩
  · have hempty : leaf ((plan place image slot).foldl install fun _ _ ↦ 0) r = 0 :=
      leaf_foldl_of_not_mem fun m hm hpage ↦ hplanned ⟨m, hm, hpage⟩
    rw [hempty, present_zero] at hpresent
    cases hpresent

/-- Every planned page is translated as the plan says. -/
theorem walk_planned (mode : UInt32) (command : Option Memory) (old : Process) (other : Frames)
    (hslot : slot < slots) (h : image.Valid rounds) {m : Mapping} (hm : m ∈ plan place image slot) :
    walk (place.frames slot (prepare place image.toC slot mode command old).tables other)
      (place.pml4 slot) (2 ^ 18 + m.page) =
        some ⟨m.physical, true, writable m.flags, !noExecute m.flags⟩ := by
  obtain ⟨hpage, hpresent, huser, hframe, hwritable, hexecute⟩ :=
    leaf_entry hslot (sound_of_mem_plan h hm)
  rw [tables_prepare h, walk_leaf hslot (by omega), leaf_foldl_of_mem (pairwise_plan h) hm,
    if_pos ⟨hpage, hpresent⟩, huser, hframe, hwritable, hexecute]

/-! ## The memory behind the pages -/

/-- The bytes of the three arrays of a slot. -/
def Placement.Private (place : Placement) (slot a : ℕ) : Prop :=
  (place.memory slot ≤ a ∧ a < place.memory slot + userImageLimit) ∨
    (place.startup slot ≤ a ∧ a < place.startup slot + page) ∨
    (place.stack slot ≤ a ∧ a < place.stack slot + userStackSize)

/-- The page tables of the slot, the other slots, and everything of the kernel but `processes`. -/
def Placement.Foreign (place : Placement) (slot a : ℕ) : Prop :=
  (place.process slot ≤ a ∧ a < place.process slot + tablesSize) ∨
    (∃ peer < slots, peer ≠ slot ∧ place.process peer ≤ a ∧ a < place.process peer + processSize) ∨
    a < place.processes ∨ place.processes + slots * processSize ≤ a

/-- The page behind a mapping lies in the arrays of its slot. -/
theorem private_of_sound {m : Mapping} (h : m.Sound place slot) {a : ℕ}
    (ha : m.physical ≤ a ∧ a < m.physical + page) : place.Private slot a := by
  have hrange := h.range
  have hphysical := h.physical
  have hpage : page = 4096 := rfl
  have hlimit : userImageLimit = 2048 * 4096 := rfl
  have hstack : userStackSize = 64 * 4096 := rfl
  unfold Placement.Private Placement.stack Placement.startup
  rw [hpage, hlimit, hstack]
  rw [hpage] at ha
  unfold backing at hphysical
  split at hphysical
  · omega
  · omega

theorem not_foreign_of_private (hslot : slot < slots) {a : ℕ} (h : place.Private slot a) :
    ¬ place.Foreign slot a := by
  have hslots : slots = 2 := rfl
  unfold Placement.Private Placement.stack Placement.startup Placement.memory Placement.process at h
  unfold Placement.Foreign Placement.process
  rw [hslots] at hslot ⊢
  have hsize : processSize = 8687616 := rfl
  have htables : tablesSize = 32768 := rfl
  have hpage : page = 4096 := rfl
  have hlimit : userImageLimit = 8388608 := rfl
  have hstack : userStackSize = 262144 := rfl
  rw [hsize, htables, hpage, hlimit, hstack] at h
  rw [hsize, htables]
  rintro (htable | ⟨peer, hpeer, hne, hother⟩ | hbelow | habove)
  · omega
  · have hcases : (slot = 0 ∧ peer = 1) ∨ (slot = 1 ∧ peer = 0) := by omega
    rcases hcases with ⟨rfl, rfl⟩ | ⟨rfl, rfl⟩ <;> omega
  · omega
  · have hcases : slot = 0 ∨ slot = 1 := by omega
    rcases hcases with rfl | rfl <;> omega

/-- Distinct planned pages have distinct frames. -/
theorem page_eq_of_physical_eq {m n : Mapping} (hm : m.Sound place slot) (hn : n.Sound place slot)
    (h : m.physical = n.physical) : m.page = n.page := by
  have hmrange := hm.range
  have hnrange := hn.range
  rw [hm.physical, hn.physical] at h
  unfold backing at h
  split at h <;> split at h <;> omega

/-! ## Isolation -/

/-- For every accepted file, slot, mode and command, and whatever the slot and the rest of memory hold: the user
pages are the segments, the marker, the startup page and the stack, none of them writable and
executable, each with a frame of its own in the arrays of the slot; the guard page is absent and the
identity map of the kernel is the supervisor's. -/
theorem prepare_isolates (place : Placement) (data : List UInt8) (image : Image)
    (hembed : embed data = .ok image) (slot : ℕ) (hslot : slot < slots) (mode : UInt32)
    (command : Option Memory) (old : Process) (other : Frames) :
    let tables := (prepare place image.toC slot mode command old).tables
    let translate := walk (place.frames slot tables other) (place.pml4 slot)
    (∀ v < 2 ^ 36, (∃ u, translate v = some u ∧ u.user = true) ↔ UserPage image v) ∧
    translate ((userStartup + page) / page) = none ∧
    (∀ v < 2 ^ 36, ∀ u, translate v = some u → u.user = true →
      ¬ (u.writable = true ∧ u.executable = true)) ∧
    (∀ v < 2 ^ 36, ∀ w < 2 ^ 36, ∀ u x, translate v = some u → translate w = some x →
      u.user = true → x.user = true → u.frame = x.frame → v = w) ∧
    (∀ v < 2 ^ 36, ∀ u, translate v = some u → u.user = true → ∀ a, u.frame ≤ a →
      a < u.frame + page → place.Private slot a ∧ ¬ place.Foreign slot a) ∧
    user (tables.pdpt 0) = false := by
  intro tables translate
  have hvalid := valid_of_embed hembed
  have hfrom {v : ℕ} (hv : v < 2 ^ 36) {u : Translation} (hu : translate v = some u)
      (huser : u.user = true) := exists_mapping hslot hvalid hv hu huser
  refine ⟨fun v hv ↦ ?_, ?_, ?_, ?_, ?_, ?_⟩
  · rw [← exists_mem_plan place slot hvalid v]
    constructor
    · rintro ⟨u, hu, huser⟩
      obtain ⟨m, hm, hpage, -⟩ := hfrom hv hu huser
      exact ⟨m, hm, hpage⟩
    · rintro ⟨m, hm, rfl⟩
      exact ⟨_, walk_planned mode command old other hslot hvalid hm, rfl⟩
  · have hguard : (userStartup + page) / page = 2 ^ 18 + 2049 := by decide
    have htables : tables = linked place slot ((plan place image slot).foldl install fun _ _ ↦ 0) :=
      tables_prepare hvalid mode command old
    have hempty : leaf ((plan place image slot).foldl install fun _ _ ↦ 0) 2049 = 0 := by
      refine leaf_foldl_of_not_mem fun m hm hpage ↦ ?_
      have hrange := (sound_of_mem_plan hvalid hm).range
      omega
    change walk (place.frames slot tables other) (place.pml4 slot) _ = none
    rw [hguard, htables, walk_leaf hslot (by decide), hempty, present_zero]
    exact if_neg fun h ↦ Bool.false_ne_true h.2
  · intro v hv u hu huser
    obtain ⟨-, -, -, -, hrights⟩ := hfrom hv hu huser
    exact hrights
  · intro v hv w hw u x hu hx huser hxuser hframe
    obtain ⟨m, hm, rfl, hum, -⟩ := hfrom hv hu huser
    obtain ⟨n, hn, rfl, hxn, -⟩ := hfrom hw hx hxuser
    rw [page_eq_of_physical_eq (sound_of_mem_plan hvalid hm) (sound_of_mem_plan hvalid hn)
      (by rw [← hum, ← hxn, hframe])]
  · intro v hv u hu huser a hlow hhigh
    obtain ⟨m, hm, -, hum, -⟩ := hfrom hv hu huser
    rw [hum] at hlow hhigh
    have hprivate := private_of_sound (sound_of_mem_plan hvalid hm) ⟨hlow, hhigh⟩
    exact ⟨hprivate, not_foreign_of_private hslot hprivate⟩
  · have htables : tables = linked place slot ((plan place image slot).foldl install fun _ _ ↦ 0) :=
      tables_prepare hvalid mode command old
    have hkernel : user (0x82000 ||| P ||| W) = false := by decide
    rw [htables]
    exact hkernel

/-- A file with one segment, a single `ret`. -/
def retFile : List UInt8 :=
  [0x7f, 0x45, 0x4c, 0x46, 2, 1, 1, 0, 0, 0, 0, 0, 0, 0, 0, 0] ++
    [2, 0, 62, 0, 1, 0, 0, 0, 0, 0, 0, 0x40, 0, 0, 0, 0] ++
    [64, 0, 0, 0, 0, 0, 0, 0, 0, 0, 0, 0, 0, 0, 0, 0] ++
    [0, 0, 0, 0, 64, 0, 56, 0, 1, 0, 0, 0, 0, 0, 0, 0] ++
    [1, 0, 0, 0, 5, 0, 0, 0, 120, 0, 0, 0, 0, 0, 0, 0] ++
    [0, 0, 0, 0x40, 0, 0, 0, 0, 0, 0, 0, 0x40, 0, 0, 0, 0] ++
    [1, 0, 0, 0, 0, 0, 0, 0, 1, 0, 0, 0, 0, 0, 0, 0] ++ [0, 16, 0, 0, 0, 0, 0, 0, 0xc3]

theorem embed_retFile :
    embed retFile = .ok ⟨userBase, [0xc3], [⟨0, 1, 1, 0, 5⟩]⟩ := by decide +kernel

def initialPlacement : Placement := ⟨0x100000, by decide, by decide, by decide⟩

/-- A slot in which no byte is zero. -/
def usedSlot : Process where
  tables := ⟨fun _ ↦ 0x0101010101010101, fun _ ↦ 0x0101010101010101, fun _ ↦ 0x0101010101010101,
    fun _ _ ↦ 0x0101010101010101⟩
  memory := fun _ ↦ 1
  startup := fun _ ↦ 1
  stack := fun _ ↦ 1

/-- The page of the `ret` is reached by the first process. -/
theorem prepare_isolates_retFile :
    let tables := (prepare initialPlacement (Image.toC ⟨userBase, [0xc3], [⟨0, 1, 1, 0, 5⟩]⟩) 0 0 none usedSlot).tables
    ∃ u, walk (initialPlacement.frames 0 tables fun _ _ ↦ 0) (initialPlacement.pml4 0) (2 ^ 18) = some u ∧
      u.user = true := by
  have h := (prepare_isolates initialPlacement retFile _ embed_retFile 0 (by decide) 0 none usedSlot
    fun _ _ ↦ 0).1 (2 ^ 18) (by decide)
  exact h.mpr (.inl ⟨⟨0, 1, 1, 0, 5⟩, List.mem_singleton_self _, userBase, by decide, by decide, by decide⟩)

end JordyOS.Isolation
