import JordyOS.Isolation.Process
import Mathlib.Tactic.Ring

/-!
# The tables of a process

`prepare` as a plan: the list of mappings it makes, in the order it makes them.  A table built from a
plan whose pages differ holds exactly the planned entries, and the plan of an accepted image has
pages, frames and rights that can be read off.
-/

namespace JordyOS.Isolation

open Machine Paging

/-! ## Mappings -/

/-- One call of `map_page`: pages are counted from `USER_BASE`. -/
structure Mapping where
  page : ℕ
  physical : ℕ
  flags : UInt64

def Mapping.entry (m : Mapping) : UInt64 := UInt64.ofNat m.physical ||| P ||| U ||| m.flags

/-- The leaf entry of a page. -/
def leaf (pt : ℕ → ℕ → UInt64) (r : ℕ) : UInt64 := pt (r / 512) (r % 512)

def install (pt : ℕ → ℕ → UInt64) (m : Mapping) : ℕ → ℕ → UInt64 :=
  setEntry pt (m.page / 512) (m.page % 512) m.entry

theorem leaf_install (pt : ℕ → ℕ → UInt64) (m : Mapping) (r : ℕ) :
    leaf (install pt m) r = if r = m.page then m.entry else leaf pt r := by
  unfold leaf install setEntry
  by_cases hrow : r / 512 = m.page / 512
  · rw [hrow, Function.update_self]
    by_cases hplace : r % 512 = m.page % 512
    · rw [hplace, Function.update_self, if_pos (by omega)]
    · rw [Function.update_of_ne hplace, if_neg (by omega)]
  · rw [Function.update_of_ne hrow, if_neg (by omega)]

theorem leaf_foldl_of_not_mem {pt : ℕ → ℕ → UInt64} {plan : List Mapping} {r : ℕ}
    (h : ∀ m ∈ plan, m.page ≠ r) : leaf (plan.foldl install pt) r = leaf pt r := by
  induction plan generalizing pt with
  | nil => rfl
  | cons m plan ih =>
    rw [List.foldl_cons, ih fun n hn ↦ h n (List.mem_cons_of_mem m hn), leaf_install,
      if_neg (h m List.mem_cons_self).symm]

theorem leaf_foldl_of_mem {pt : ℕ → ℕ → UInt64} {plan : List Mapping} {m : Mapping}
    (hplan : plan.Pairwise fun m n ↦ m.page ≠ n.page) (hm : m ∈ plan) :
    leaf (plan.foldl install pt) m.page = m.entry := by
  induction plan generalizing pt with
  | nil => cases hm
  | cons n plan ih =>
    obtain ⟨hfirst, hrest⟩ := List.pairwise_cons.mp hplan
    rw [List.foldl_cons]
    rcases List.mem_cons.mp hm with rfl | hm
    · rw [leaf_foldl_of_not_mem fun n hn ↦ (hfirst n hn).symm, leaf_install, if_pos rfl]
    · exact ih hrest hm

theorem toNat_pageOffset {r : ℕ} (hr : r < 2 ^ 32) : (UInt64.ofNat (r * page)).toNat = r * page := by
  refine UInt64.toNat_ofNat_of_lt' ?_
  change r * 4096 < 2 ^ 64
  omega

/-- Where the leaf entry of a page lies, by its offset from `USER_BASE`. -/
theorem row_pageOffset {r : ℕ} (hr : r < 2 ^ 32) :
    (UInt64.ofNat (r * page) >>> 21).toNat = r / 512 ∧
    (UInt64.ofNat (r * page) >>> 12 &&& 511).toNat = r % 512 := by
  constructor
  · rw [UInt64.toNat_shiftRight, toNat_pageOffset hr, Nat.shiftRight_eq_div_pow]
    change r * 4096 / 2 ^ 21 = _
    omega
  · rw [UInt64.toNat_and, UInt64.toNat_shiftRight, toNat_pageOffset hr, Nat.shiftRight_eq_div_pow]
    change r * 4096 / 2 ^ 12 &&& 2 ^ 9 - 1 = _
    rw [Nat.and_two_pow_sub_one_eq_mod]
    omega

/-- `map_page` installs one mapping, whichever way its address was computed. -/
theorem tables_mapPage (p : Process) {m : Mapping} (hpage : m.page < 2 ^ 32) {address physical : UInt64}
    (haddress : address = UInt64.ofNat (userBase + m.page * page))
    (hphysical : physical = UInt64.ofNat m.physical) :
    (mapPage p address physical m.flags).tables = { p.tables with pt := install p.tables.pt m } := by
  have hoffset : address - UInt64.ofNat userBase = UInt64.ofNat (m.page * page) := by
    rw [haddress, UInt64.ofNat_add, UInt64.add_comm, UInt64.add_sub_cancel]
  obtain ⟨hrow, hplace⟩ := row_pageOffset hpage
  unfold mapPage
  simp only [hoffset, hrow, hplace, hphysical]
  rfl

/-- A loop of `map_page` calls installs its mappings in order. -/
theorem tables_foldl_mapPage {rounds : List ℕ} {f : ℕ → Mapping} {address physical : ℕ → UInt64}
    {flags : UInt64} (p : Process) (hpage : ∀ k ∈ rounds, (f k).page < 2 ^ 32)
    (haddress : ∀ k ∈ rounds, address k = UInt64.ofNat (userBase + (f k).page * page))
    (hphysical : ∀ k ∈ rounds, physical k = UInt64.ofNat (f k).physical)
    (hflags : ∀ k ∈ rounds, (f k).flags = flags) :
    (rounds.foldl (fun p k ↦ mapPage p (address k) (physical k) flags) p).tables =
      { p.tables with pt := (rounds.map f).foldl install p.tables.pt } := by
  induction rounds generalizing p with
  | nil => rfl
  | cons k rounds ih =>
    have hfirst := tables_mapPage p (hpage k List.mem_cons_self) (haddress k List.mem_cons_self)
      (hphysical k List.mem_cons_self)
    rw [hflags k List.mem_cons_self] at hfirst
    rw [List.foldl_cons, ih _ (fun n hn ↦ hpage n (List.mem_cons_of_mem k hn))
      (fun n hn ↦ haddress n (List.mem_cons_of_mem k hn))
      (fun n hn ↦ hphysical n (List.mem_cons_of_mem k hn))
      (fun n hn ↦ hflags n (List.mem_cons_of_mem k hn)), hfirst]
    rfl

/-! ## The plan -/

def segmentFlags (flags : UInt32) : UInt64 :=
  (if flags &&& 2 ≠ 0 then W else 0) ||| (if flags &&& 1 ≠ 0 then 0 else NX)

/-- A page below the guard page, at its place behind the start of `memory`. -/
def lowMapping (place : Placement) (slot : ℕ) (flags : UInt64) (r : ℕ) : Mapping :=
  ⟨r, place.memory slot + r * page, flags⟩

/-- A page of the stack; the guard page takes no memory. -/
def stackMapping (place : Placement) (slot : ℕ) (k : ℕ) : Mapping :=
  ⟨2050 + k, place.stack slot + k * page, W ||| NX⟩

def segmentPlan (place : Placement) (slot : ℕ) (s : Segment) : List Mapping :=
  (List.range ((s.memorySize + 4095) / page)).map fun k ↦
    lowMapping place slot (segmentFlags s.flags) (s.offset / page + k)

def plan (place : Placement) (image : Image) (slot : ℕ) : List Mapping :=
  image.segments.flatMap (segmentPlan place slot) ++
    [lowMapping place slot (W ||| NX) 2047, lowMapping place slot NX 2048] ++
    (List.range 64).map (stackMapping place slot)

variable {place : Placement} {slot rounds : ℕ} {image : Image} {s : Segment}

theorem toNat_toC (h : s.Valid) :
    s.toC.offset.toNat = s.offset ∧ s.toC.memorySize.toNat = s.memorySize := by
  have hinside := h.inside
  have hlimit : limit = 8384512 := rfl
  have hword : UInt32.size = 2 ^ 32 := rfl
  exact ⟨UInt32.toNat_ofNat_of_lt' (by omega), UInt32.toNat_ofNat_of_lt' (by omega)⟩

theorem tables_loadSegment (h : s.Valid) (image : UserImage) (p : Process) :
    (loadSegment place image slot p s.toC).tables =
      { p.tables with pt := (segmentPlan place slot s).foldl install p.tables.pt } := by
  obtain ⟨hoffset, hsize⟩ := toNat_toC h
  have hlimit : limit = 8384512 := rfl
  have haligned := h.aligned
  have hinside := h.inside
  have hstart : s.offset = s.offset / page * page := by
    change s.offset = s.offset / 4096 * 4096
    omega
  have hword : s.toC.offset.toUInt64 = UInt64.ofNat s.offset := by
    rw [← UInt64.ofNat_toNat (x := s.toC.offset.toUInt64), UInt32.toNat_toUInt64, hoffset]
  unfold loadSegment pageOffsets
  rw [hsize, hword, List.foldl_map]
  refine tables_foldl_mapPage (f := fun k ↦
    lowMapping place slot (segmentFlags s.flags) (s.offset / page + k)) _ ?_ ?_ ?_ ?_
  · intro k hk
    have hround : k < (s.memorySize + 4095) / 4096 := List.mem_range.mp hk
    change s.offset / 4096 + k < 2 ^ 32
    omega
  · intro k _
    rw [← UInt64.ofNat_add, ← UInt64.ofNat_add]
    congr 1
    change _ = userBase + (s.offset / page + k) * page
    rw [Nat.add_mul, ← hstart, Nat.add_assoc]
  · intro k _
    rw [← UInt64.ofNat_add, ← UInt64.ofNat_add]
    congr 1
    change _ = place.memory slot + (s.offset / page + k) * page
    rw [Nat.add_mul, ← hstart, Nat.add_assoc]
  · exact fun _ _ ↦ rfl

theorem tables_foldl_loadSegment (segments : List Segment) (h : ∀ s ∈ segments, s.Valid)
    (image : UserImage) (p : Process) :
    ((segments.map Segment.toC).foldl (loadSegment place image slot) p).tables =
      { p.tables with
        pt := (segments.flatMap (segmentPlan place slot)).foldl install p.tables.pt } := by
  induction segments generalizing p with
  | nil => rfl
  | cons s segments ih =>
    rw [List.map_cons, List.foldl_cons, ih fun t ht ↦ h t (List.mem_cons_of_mem s ht),
      tables_loadSegment (h s List.mem_cons_self), List.flatMap_cons, List.foldl_append]

theorem tables_mapMarker (p : Process) :
    (mapPage p (UInt64.ofNat marker) (UInt64.ofNat (place.memory slot + userImageLimit - page))
      (W ||| NX)).tables =
      { p.tables with pt := install p.tables.pt (lowMapping place slot (W ||| NX) 2047) } := by
  have haddress : marker = userBase + 2047 * page := by decide
  have hphysical : place.memory slot + userImageLimit - page = place.memory slot + 2047 * page :=
    Nat.add_sub_assoc (by decide) (place.memory slot)
  rw [haddress, hphysical]
  exact tables_mapPage p (m := lowMapping place slot (W ||| NX) 2047)
    (by change 2047 < 2 ^ 32; decide) rfl rfl

theorem tables_mapStartup (p : Process) :
    (mapPage p (UInt64.ofNat userStartup) (UInt64.ofNat (place.startup slot)) NX).tables =
      { p.tables with pt := install p.tables.pt (lowMapping place slot NX 2048) } := by
  have haddress : userStartup = userBase + 2048 * page := by decide
  rw [haddress]
  exact tables_mapPage p (m := lowMapping place slot NX 2048) (by change 2048 < 2 ^ 32; decide) rfl rfl

theorem tables_mapStack (p : Process) :
    ((pageOffsets userStackSize).foldl (fun p offset ↦
      mapPage p (UInt64.ofNat userStackBottom + offset) (UInt64.ofNat (place.stack slot) + offset)
        (W ||| NX)) p).tables =
      { p.tables with
        pt := ((List.range 64).map (stackMapping place slot)).foldl install p.tables.pt } := by
  have hrounds : (userStackSize + 4095) / page = 64 := rfl
  unfold pageOffsets
  rw [hrounds, List.foldl_map]
  refine tables_foldl_mapPage (f := stackMapping place slot) p ?_ ?_ ?_ fun _ _ ↦ rfl
  · intro k hk
    have hround := List.mem_range.mp hk
    change 2050 + k < 2 ^ 32
    omega
  · intro k _
    rw [← UInt64.ofNat_add]
    congr 1
    change 0x40802000 + k * page = 0x40000000 + (2050 + k) * page
    rw [Nat.add_mul, ← Nat.add_assoc]
    rfl
  · intro k _
    rw [← UInt64.ofNat_add]
    rfl

/-- The tables of a slot, with any leaves. -/
def linked (place : Placement) (slot : ℕ) (pt : ℕ → ℕ → UInt64) : PageTables :=
  linkTables place slot ⟨fun _ ↦ 0, fun _ ↦ 0, fun _ ↦ 0, pt⟩

/-- The tables are the upper levels and what the plan installs. -/
theorem tables_prepare (h : image.Valid rounds) (mode : UInt32) (command : Option Memory) (old : Process) :
    (prepare place image.toC slot mode command old).tables =
      linked place slot ((plan place image slot).foldl install fun _ _ ↦ 0) := by
  unfold prepare
  dsimp only
  rw [tables_mapStack, tables_mapStartup, tables_mapMarker, Image.toC,
    tables_foldl_loadSegment _ h.segments]
  unfold plan
  rw [List.foldl_append, List.foldl_append]
  rfl

/-! ## What the plan maps -/

/-- A byte range has a byte on the page. -/
def Covers (low high v : ℕ) : Prop := ∃ a, low ≤ a ∧ a < high ∧ a / page = v

/-- The pages a process is meant to see. -/
def UserPage (image : Image) (v : ℕ) : Prop :=
  (∃ s ∈ image.segments, Covers (userBase + s.offset) (userBase + s.offset + s.memorySize) v) ∨
    v = marker / page ∨ v = userStartup / page ∨ Covers userStackBottom userStackTop v

theorem covers_segment (h : s.Valid) (v : ℕ) :
    Covers (userBase + s.offset) (userBase + s.offset + s.memorySize) v ↔
      ∃ k < (s.memorySize + 4095) / page, v = 2 ^ 18 + (s.offset / page + k) := by
  have haligned := h.aligned
  have hbase : userBase = 2 ^ 18 * 4096 := rfl
  have hpage : page = 4096 := rfl
  unfold Covers
  rw [hbase, hpage]
  constructor
  · rintro ⟨a, hlow, hhigh, rfl⟩
    exact ⟨a / 4096 - (2 ^ 18 + s.offset / 4096), by omega, by omega⟩
  · rintro ⟨k, hk, rfl⟩
    exact ⟨2 ^ 18 * 4096 + s.offset + k * 4096, by omega, by omega, by omega⟩

theorem covers_stack (v : ℕ) :
    Covers userStackBottom userStackTop v ↔ ∃ k < 64, v = 2 ^ 18 + (2050 + k) := by
  have hbottom : userStackBottom = (2 ^ 18 + 2050) * 4096 := rfl
  have htop : userStackTop = (2 ^ 18 + 2050 + 64) * 4096 := rfl
  have hpage : page = 4096 := rfl
  unfold Covers
  rw [hbottom, htop, hpage]
  constructor
  · rintro ⟨a, hlow, hhigh, rfl⟩
    exact ⟨a / 4096 - (2 ^ 18 + 2050), by omega, by omega⟩
  · rintro ⟨k, hk, rfl⟩
    exact ⟨(2 ^ 18 + 2050 + k) * 4096, by omega, by omega, by omega⟩

theorem mem_plan {m : Mapping} : m ∈ plan place image slot ↔
    (∃ s ∈ image.segments, ∃ k < (s.memorySize + 4095) / page,
      m = lowMapping place slot (segmentFlags s.flags) (s.offset / page + k)) ∨
    m = lowMapping place slot (W ||| NX) 2047 ∨ m = lowMapping place slot NX 2048 ∨
    ∃ k < 64, m = stackMapping place slot k := by
  simp only [plan, segmentPlan, List.mem_append, List.mem_flatMap, List.mem_map, List.mem_range,
    List.mem_cons, List.not_mem_nil, or_false, or_assoc, eq_comm]

theorem marker_page : marker / page = 2 ^ 18 + 2047 := by decide

theorem userStartup_page : userStartup / page = 2 ^ 18 + 2048 := by decide

/-- The planned pages are the pages the process is meant to see. -/
theorem exists_mem_plan (place : Placement) (slot : ℕ) (h : image.Valid rounds) (v : ℕ) :
    (∃ m ∈ plan place image slot, v = 2 ^ 18 + m.page) ↔ UserPage image v := by
  unfold UserPage
  rw [marker_page, userStartup_page]
  constructor
  · rintro ⟨m, hm, rfl⟩
    rcases mem_plan.mp hm with ⟨s, hs, k, hk, rfl⟩ | rfl | rfl | ⟨k, hk, rfl⟩
    · exact .inl ⟨s, hs, (covers_segment (h.segments s hs) _).mpr ⟨k, hk, rfl⟩⟩
    · exact .inr (.inl rfl)
    · exact .inr (.inr (.inl rfl))
    · exact .inr (.inr (.inr ((covers_stack _).mpr ⟨k, hk, rfl⟩)))
  · rintro (⟨s, hs, hcovers⟩ | rfl | rfl | hcovers)
    · obtain ⟨k, hk, rfl⟩ := (covers_segment (h.segments s hs) v).mp hcovers
      exact ⟨_, mem_plan.mpr (.inl ⟨s, hs, k, hk, rfl⟩), rfl⟩
    · exact ⟨_, mem_plan.mpr (.inr (.inl rfl)), rfl⟩
    · exact ⟨_, mem_plan.mpr (.inr (.inr (.inl rfl))), rfl⟩
    · obtain ⟨k, hk, rfl⟩ := (covers_stack v).mp hcovers
      exact ⟨_, mem_plan.mpr (.inr (.inr (.inr ⟨k, hk, rfl⟩))), rfl⟩

/-- The pages of a segment end before the marker page. -/
theorem page_lt_of_segment (h : s.Valid) {k : ℕ} (hk : k < (s.memorySize + 4095) / page) :
    s.offset / page + k < 2047 := by
  have haligned := h.aligned
  have hinside := h.inside
  have hlimit : limit = 2047 * 4096 := rfl
  have hpage : page = 4096 := rfl
  rw [hpage] at hk ⊢
  omega

theorem pairwise_plan (h : image.Valid rounds) :
    (plan place image slot).Pairwise fun m n ↦ m.page ≠ n.page := by
  unfold plan
  refine List.pairwise_append.mpr ⟨List.pairwise_append.mpr ⟨?_, ?_, ?_⟩, ?_, ?_⟩
  · refine List.pairwise_flatMap.mpr ⟨fun s hs ↦ ?_, ?_⟩
    · refine List.pairwise_map.mpr (List.pairwise_lt_range.imp ?_)
      intro j k hlt heq
      exact Nat.ne_of_lt hlt (Nat.add_left_cancel heq)
    · refine List.Pairwise.imp_of_mem ?_ h.apart
      intro s t hs ht hapart m hm n hn
      simp only [segmentPlan, List.mem_map, List.mem_range] at hm hn
      obtain ⟨j, hj, rfl⟩ := hm
      obtain ⟨k, hk, rfl⟩ := hn
      have hsaligned := (h.segments s hs).aligned
      have htaligned := (h.segments t ht).aligned
      unfold Segment.Apart roundUp at hapart
      change s.offset / 4096 + j ≠ t.offset / 4096 + k
      have hpage : page = 4096 := rfl
      rw [hpage] at hj hk
      omega
  · simp [lowMapping]
  · intro m hm n hn
    obtain ⟨s, hs, hm⟩ := List.mem_flatMap.mp hm
    simp only [segmentPlan, List.mem_map, List.mem_range] at hm
    obtain ⟨k, hk, rfl⟩ := hm
    have hlt := page_lt_of_segment (h.segments s hs) hk
    simp only [List.mem_cons, List.not_mem_nil, or_false] at hn
    rcases hn with rfl | rfl
    · exact Nat.ne_of_lt hlt
    · exact Nat.ne_of_lt (Nat.lt_succ_of_lt hlt)
  · refine List.pairwise_map.mpr (List.pairwise_lt_range.imp ?_)
    intro j k hlt heq
    exact Nat.ne_of_lt hlt (Nat.add_left_cancel heq)
  · intro m hm n hn
    obtain ⟨k, -, rfl⟩ := List.mem_map.mp hn
    have hbound : m.page ≤ 2048 := by
      rcases List.mem_append.mp hm with hm | hm
      · obtain ⟨s, hs, hm⟩ := List.mem_flatMap.mp hm
        simp only [segmentPlan, List.mem_map, List.mem_range] at hm
        obtain ⟨j, hj, rfl⟩ := hm
        have hlt := page_lt_of_segment (h.segments s hs) hj
        exact Nat.le_trans (Nat.le_of_lt hlt) (by decide)
      · simp only [List.mem_cons, List.not_mem_nil, or_false] at hm
        rcases hm with rfl | rfl
        · exact (by decide : 2047 ≤ 2048)
        · exact Nat.le_refl 2048
    change m.page ≠ 2050 + k
    omega

/-- The page of the three arrays that stands behind a page of the process. -/
def backing (r : ℕ) : ℕ := if r ≤ 2048 then r else r - 1

/-- Everything that holds of a single planned mapping. -/
structure Mapping.Sound (place : Placement) (slot : ℕ) (m : Mapping) : Prop where
  range : m.page ≤ 2048 ∨ 2050 ≤ m.page ∧ m.page < 2114
  physical : m.physical = place.memory slot + backing m.page * 4096
  flags : m.flags = 0 ∨ m.flags = NX ∨ m.flags = W ||| NX

theorem segmentFlags_cases (h : s.Valid) :
    segmentFlags s.flags = 0 ∨ segmentFlags s.flags = NX ∨ segmentFlags s.flags = W ||| NX := by
  rcases h.flags with hflags | hflags | hflags
  · rw [hflags]
    exact .inr (.inl rfl)
  · rw [hflags]
    exact .inl rfl
  · rw [hflags]
    exact .inr (.inr rfl)

theorem sound_of_mem_plan (h : image.Valid rounds) {m : Mapping} (hm : m ∈ plan place image slot) :
    m.Sound place slot := by
  rcases mem_plan.mp hm with ⟨s, hs, k, hk, rfl⟩ | rfl | rfl | ⟨k, hk, rfl⟩
  · have hlt := page_lt_of_segment (h.segments s hs) hk
    have hle : s.offset / page + k ≤ 2048 := Nat.le_trans (Nat.le_of_lt hlt) (by decide)
    refine ⟨.inl hle, ?_, segmentFlags_cases (h.segments s hs)⟩
    have hbacking : backing (s.offset / page + k) = s.offset / page + k := if_pos hle
    change _ = place.memory slot + backing (s.offset / page + k) * 4096
    rw [hbacking]
    rfl
  · exact ⟨.inl (by change 2047 ≤ 2048; decide), rfl, .inr (.inr rfl)⟩
  · exact ⟨.inl (Nat.le_refl 2048), rfl, .inr (.inl rfl)⟩
  · have hrange : 2050 ≤ 2050 + k ∧ 2050 + k < 2114 := by omega
    refine ⟨.inr hrange, ?_, .inr (.inr rfl)⟩
    have hbacking : backing (2050 + k) = 2049 + k := by
      unfold backing
      rw [if_neg (by omega)]
      omega
    change place.memory slot + userImageLimit + 4096 + k * 4096 =
      place.memory slot + backing (2050 + k) * 4096
    have hlimit : userImageLimit = 2048 * 4096 := rfl
    rw [hbacking, hlimit]
    ring

end JordyOS.Isolation
