import AuraOS.AreaEffects

namespace AuraOS.UserSpace

open PhysicalFrames VirtualAreas

variable {area : VmArea} {candidate addr start : Nat} {r : Option Nat}

section Search

variable (vmas : List VmArea) (len : Nat)

/-- The search loop of `mmap`, with no bound on its rounds: from a candidate it ends
with an address, or with none. -/
inductive SearchEnds : Nat → Option Nat → Prop
  | full {candidate : Nat} (hfull : mmapBaseEnd < add64 candidate len) : SearchEnds candidate none
  | found {candidate : Nat} (hfits : add64 candidate len ≤ mmapBaseEnd)
      (hfree : vmas.find? (·.overlaps candidate len) = none) : SearchEnds candidate (some candidate)
  | jump {candidate : Nat} {existing : VmArea} {result : Option Nat}
      (hfits : add64 candidate len ≤ mmapBaseEnd)
      (hfind : vmas.find? (·.overlaps candidate len) = some existing)
      (hrest : SearchEnds (alignUpPage existing.endAddr) result) : SearchEnds candidate result

inductive SearchReaches (start : Nat) : Nat → Prop
  | start : SearchReaches start start
  | jump {candidate : Nat} {existing : VmArea} (hreached : SearchReaches start candidate)
      (hfits : add64 candidate len ≤ mmapBaseEnd)
      (hfind : vmas.find? (·.overlaps candidate len) = some existing) :
      SearchReaches start (alignUpPage existing.endAddr)

def roundedEnd (area : VmArea) : Nat :=
  (area.endAddr + (pageSize - 1)) / pageSize * pageSize

attribute [grind =] roundedEnd

/-- No range that passes the test of the loop wraps around, nor does the end of an area in
its way when it is rounded up. -/
def SearchInRange (start : Nat) : Prop :=
  ∀ candidate, SearchReaches vmas len start candidate → add64 candidate len ≤ mmapBaseEnd →
    candidate + len < 2 ^ 64 ∧
      ∀ existing, vmas.find? (·.overlaps candidate len) = some existing →
        roundedEnd existing < 2 ^ 64

structure FreeRange (start addr : Nat) : Prop where
  aligned : addr % pageSize = 0
  start_le : start ≤ addr
  window : addr + len ≤ mmapBaseEnd
  disjoint : ∀ area ∈ vmas, ∀ x, addr ≤ x → x < addr + len → area.contains x = false

/-- No empty area, which `overlaps` takes for a conflict, lies strictly inside the lowest free
range; and if no range is free, the search does not wrap around. -/
structure Placeable (start : Nat) : Prop where
  lowest : ∀ addr, IsLeast {a | FreeRange vmas len start a} addr →
    ∀ area ∈ vmas, area.size = 0 → ¬ (addr < area.start ∧ area.start < addr + len)
  refused : (∀ a, ¬ FreeRange vmas len start a) → SearchInRange vmas len start

variable {vmas len}

theorem alignUpPage_endAddr (area : VmArea) (h : roundedEnd area < 2 ^ 64) :
    alignUpPage area.endAddr = roundedEnd area := by
  grind

theorem le_roundedEnd (area : VmArea) : area.endAddr ≤ roundedEnd area := by
  grind

theorem lt_endAddr_of_overlaps (h : area.overlaps candidate len = true) :
    candidate < area.endAddr := by
  simp only [VmArea.overlaps, Bool.not_eq_true', Bool.or_eq_false_iff, decide_eq_false_iff_not] at h
  omega

theorem overlaps_of_find? {existing : VmArea}
    (hfind : vmas.find? (·.overlaps candidate len) = some existing) :
    existing ∈ vmas ∧ existing.overlaps candidate len = true :=
  ⟨List.mem_of_find?_eq_some hfind, by simpa using List.find?_some hfind⟩

theorem add64_wrapped (hwrap : 2 ^ 64 ≤ candidate + len) (hcandidate : candidate < 2 ^ 64)
    (hlen : len ≤ mmapBaseEnd) : add64 candidate len ≤ mmapBaseEnd := by
  grind

theorem FreeRange.behind (hlen : 0 < len) (hmem : area ∈ vmas)
    (hnowrap : area.start + area.size < 2 ^ 64) (hstart : area.start < addr + len)
    (hempty : area.size = 0 → ¬ (addr < area.start ∧ area.start < addr + len))
    (h : FreeRange vmas len start addr) : roundedEnd area ≤ addr := by
  have hstop : area.endAddr = area.start + area.size := Nat.mod_eq_of_lt hnowrap
  have hbehind : area.endAddr ≤ addr := by
    by_contra hlt
    have hfree := h.disjoint area hmem (max addr area.start) (Nat.le_max_left _ _) (by omega)
    simp only [VmArea.contains, Bool.and_eq_false_iff, decide_eq_false_iff_not] at hfree
    omega
  have haligned := h.aligned
  grind

theorem freeRange_of_find?_none (haligned : candidate % pageSize = 0)
    (hword : candidate + len < 2 ^ 64) (hfits : candidate + len ≤ mmapBaseEnd)
    (hfree : vmas.find? (·.overlaps candidate len) = none) :
    FreeRange vmas len candidate candidate := by
  refine ⟨haligned, le_rfl, hfits, fun area harea x hlo hhi => ?_⟩
  have hend : add64 candidate len = candidate + len := Nat.mod_eq_of_lt hword
  simp only [VmArea.overlaps, VmArea.contains, hend] at *
  grind

def IsLowest (vmas : List VmArea) (len start : Nat) : Option Nat → Prop
  | some addr => IsLeast {a | FreeRange vmas len start a} addr
  | none => ∀ a, ¬ FreeRange vmas len start a

def areasBehind (vmas : List VmArea) (candidate : Nat) : Nat :=
  vmas.countP fun area => candidate < area.endAddr

theorem areasBehind_lt {existing : VmArea} {next : Nat} (hmem : existing ∈ vmas)
    (hlt : candidate < existing.endAddr) (hle : existing.endAddr ≤ next) :
    areasBehind vmas next < areasBehind vmas candidate := by
  obtain ⟨before, after, rfl⟩ := List.append_of_mem hmem
  have hmono : ∀ l : List VmArea, l.countP (fun area => next < area.endAddr) ≤
      l.countP (fun area => candidate < area.endAddr) := by
    intro l
    refine List.countP_mono_left fun area _ harea => ?_
    grind
  have hbefore := hmono before
  have hafter := hmono after
  rw [areasBehind, areasBehind, List.countP_append, List.countP_append,
    List.countP_cons_of_neg (by simpa using hle), List.countP_cons_of_pos (by simpa using hlt)]
  omega

/-- One round for each area behind the candidate, and one more, lead to the lowest free
range: no jump goes beyond it. -/
theorem searchRange_of_isLeast (hlen : 0 < len)
    (hnowrap : ∀ area ∈ vmas, area.start + area.size < 2 ^ 64)
    (hleast : IsLeast {a | FreeRange vmas len start a} addr)
    (hempty : ∀ area ∈ vmas, area.size = 0 → ¬ (addr < area.start ∧ area.start < addr + len))
    {rounds : Nat} (hstart : start ≤ candidate) (hle : candidate ≤ addr)
    (haligned : candidate % pageSize = 0) (hrounds : areasBehind vmas candidate < rounds) :
    SearchEnds vmas len candidate (some addr) ∧
      searchRange vmas len rounds candidate = some addr := by
  induction rounds generalizing candidate with
  | zero => omega
  | succ rounds ih =>
    have hwindow := hleast.1.window
    have hword : candidate + len < 2 ^ 64 := by grind
    have hfits : add64 candidate len ≤ mmapBaseEnd := by
      rw [add64, Nat.mod_eq_of_lt hword]
      omega
    rw [searchRange, if_pos hfits]
    cases hfind : vmas.find? (·.overlaps candidate len) with
    | none =>
      have hfree := freeRange_of_find?_none haligned hword (by omega) hfind
      have hsame : candidate = addr :=
        Nat.le_antisymm hle (hleast.2 ⟨haligned, hstart, hfree.window, hfree.disjoint⟩)
      rw [← hsame]
      exact ⟨.found hfits hfind, rfl⟩
    | some existing =>
      obtain ⟨hmem, hover⟩ := overlaps_of_find? hfind
      obtain ⟨hbefore, hafter⟩ := (overlaps_iff hword).mp hover
      have hnext : roundedEnd existing ≤ addr :=
        hleast.1.behind hlen hmem (hnowrap existing hmem) (by omega) (hempty existing hmem)
      have hrounded := le_roundedEnd existing
      have hjump := alignUpPage_endAddr existing (by grind)
      have hbehind := areasBehind_lt hmem hafter hrounded
      have hstart' : start ≤ roundedEnd existing := by omega
      obtain ⟨hends, hsearch⟩ := ih hstart' hnext (Nat.mul_mod_left _ _) (by omega)
      simp only [hjump]
      exact ⟨.jump hfits hfind (by rw [hjump]; exact hends), hsearch⟩

theorem searchRange_of_none (hnone : ∀ a, ¬ FreeRange vmas len start a)
    (hrange : SearchInRange vmas len start) {rounds : Nat}
    (hreached : SearchReaches vmas len start candidate) (hstart : start ≤ candidate)
    (haligned : candidate % pageSize = 0) (hrounds : areasBehind vmas candidate < rounds) :
    SearchEnds vmas len candidate none ∧ searchRange vmas len rounds candidate = none := by
  induction rounds generalizing candidate with
  | zero => omega
  | succ rounds ih =>
    rw [searchRange]
    split
    · rename_i hfits
      obtain ⟨hword, hnext⟩ := hrange candidate hreached hfits
      have hend : add64 candidate len = candidate + len := Nat.mod_eq_of_lt hword
      cases hfind : vmas.find? (·.overlaps candidate len) with
      | none =>
        have hfree := freeRange_of_find?_none haligned hword (by omega) hfind
        exact absurd ⟨haligned, hstart, hfree.window, hfree.disjoint⟩ (hnone candidate)
      | some existing =>
        obtain ⟨hmem, hover⟩ := overlaps_of_find? hfind
        have hjump := alignUpPage_endAddr existing (hnext existing hfind)
        have hreached' := hreached.jump hfits hfind
        have hlt := lt_endAddr_of_overlaps hover
        have hrounded := le_roundedEnd existing
        have hbehind := areasBehind_lt hmem hlt hrounded
        simp only
        rw [hjump] at hreached' ⊢
        obtain ⟨hends, hsearch⟩ := ih hreached' (by omega) (Nat.mul_mod_left _ _) (by omega)
        exact ⟨.jump hfits hfind (by rw [hjump]; exact hends), hsearch⟩
    · rename_i hfull
      exact ⟨.full (by omega), rfl⟩

theorem Placeable.searchRange_ends (h : Placeable vmas len start) (hlen : 0 < len)
    (hnowrap : ∀ area ∈ vmas, area.start + area.size < 2 ^ 64) (haligned : start % pageSize = 0)
    {rounds : Nat} (hrounds : areasBehind vmas start < rounds) :
    SearchEnds vmas len start (searchRange vmas len rounds start) ∧
      IsLowest vmas len start (searchRange vmas len rounds start) := by
  by_cases hfree : ∃ a, FreeRange vmas len start a
  · obtain ⟨addr, hleast⟩ : ∃ addr, IsLeast {a | FreeRange vmas len start a} addr := by
      classical
      exact ⟨Nat.find hfree, Nat.find_spec hfree, fun a ha => Nat.find_min' hfree ha⟩
    obtain ⟨hends, hsearch⟩ := searchRange_of_isLeast hlen hnowrap hleast (h.lowest addr hleast)
      le_rfl hleast.1.start_le haligned hrounds
    rw [hsearch]
    exact ⟨hends, hleast⟩
  · have hnone := not_exists.mp hfree
    obtain ⟨hends, hsearch⟩ :=
      searchRange_of_none hnone (h.refused hnone) .start le_rfl haligned hrounds
    rw [hsearch]
    exact ⟨hends, hnone⟩

section Converse

theorem SearchEnds.find? (h : SearchEnds vmas len candidate (some addr)) :
    vmas.find? (·.overlaps addr len) = none := by
  generalize hr : some addr = r at h
  induction h with
  | full => cases hr
  | found _ hfree =>
    cases hr
    exact hfree
  | jump _ _ _ ih => exact ih hr

/-- While no end of an area is rounded to `2 ^ 64`, every jump goes up, so the search ends. -/
theorem searchEnds_of_rounded (hrounded : ∀ area ∈ vmas, roundedEnd area < 2 ^ 64) {rounds : Nat}
    (hrounds : areasBehind vmas candidate < rounds) :
    SearchEnds vmas len candidate (searchRange vmas len rounds candidate) := by
  induction rounds generalizing candidate with
  | zero => omega
  | succ rounds ih =>
    rw [searchRange]
    split
    · rename_i hfits
      cases hfind : vmas.find? (·.overlaps candidate len) with
      | none => exact .found hfits hfind
      | some existing =>
        obtain ⟨hmem, hover⟩ := overlaps_of_find? hfind
        have hjump := alignUpPage_endAddr existing (hrounded existing hmem)
        have hbehind := areasBehind_lt hmem (lt_endAddr_of_overlaps hover) (le_roundedEnd existing)
        refine .jump hfits hfind ?_
        simp only [hjump]
        exact ih (by omega)
    · rename_i hfull
      exact .full (by omega)

theorem SearchEnds.next {existing : VmArea} (h : SearchEnds vmas len candidate r)
    (hfits : add64 candidate len ≤ mmapBaseEnd)
    (hfind : vmas.find? (·.overlaps candidate len) = some existing) :
    SearchEnds vmas len (alignUpPage existing.endAddr) r := by
  cases h with
  | full hfull => omega
  | found _ hfree =>
    rw [hfree] at hfind
    cases hfind
  | jump _ hfind' hrest =>
    rw [hfind] at hfind'
    cases hfind'
    exact hrest

theorem SearchEnds.follow (h : SearchEnds vmas len start r)
    (hreached : SearchReaches vmas len start candidate) : SearchEnds vmas len candidate r := by
  induction hreached with
  | start => exact h
  | jump _ hfits hfind ih => exact ih.next hfits hfind

/-- A range that wraps around seems to fit, so that the search goes on behind the window
until it meets no area. -/
theorem SearchEnds.ne_none (hrounded : ∀ area ∈ vmas, roundedEnd area < 2 ^ 64)
    (hlen : len ≤ mmapBaseEnd) (hcandidate : candidate < 2 ^ 64) (hwrap : 2 ^ 64 ≤ candidate + len)
    (h : SearchEnds vmas len candidate r) : r ≠ none := by
  induction h with
  | full hfull => exact absurd (add64_wrapped hwrap hcandidate hlen) (Nat.not_le.mpr hfull)
  | found => exact Option.some_ne_none _
  | @jump candidate existing _ _ hfind _ ih =>
    obtain ⟨hmem, hover⟩ := overlaps_of_find? hfind
    have hlt := lt_endAddr_of_overlaps hover
    have hle := le_roundedEnd existing
    rw [alignUpPage_endAddr existing (hrounded existing hmem)] at ih
    exact ih (hrounded existing hmem) (by omega)

theorem len_le_of_fits (hstart : start + len < 2 ^ 64)
    (hreached : SearchReaches vmas len start candidate)
    (hfits : add64 candidate len ≤ mmapBaseEnd) : len ≤ mmapBaseEnd := by
  induction hreached with
  | start =>
    rw [add64, Nat.mod_eq_of_lt hstart] at hfits
    omega
  | jump _ hfits' _ ih => exact ih hfits'

theorem searchInRange_of_ends (hrounded : ∀ area ∈ vmas, roundedEnd area < 2 ^ 64)
    (hstart : start < 2 ^ 64) (hlen : len ≤ mmapBaseEnd ∨ start + len < 2 ^ 64)
    (h : SearchEnds vmas len start none) : SearchInRange vmas len start := by
  intro candidate hreached hfits
  refine ⟨?_, fun existing hfind => hrounded existing (List.mem_of_find?_eq_some hfind)⟩
  by_contra hwrap
  have hwindow : len ≤ mmapBaseEnd :=
    hlen.elim id fun hword => len_le_of_fits hword hreached hfits
  have hcandidate : candidate < 2 ^ 64 := by
    cases hreached with
    | start => exact hstart
    | jump => grind
  exact (h.follow hreached).ne_none hrounded hwindow hcandidate (Nat.not_lt.mp hwrap) rfl

end Converse

theorem SearchEnds.unique {r' : Option Nat} (h : SearchEnds vmas len candidate r)
    (h' : SearchEnds vmas len candidate r') : r = r' := by
  induction h with
  | full hfull =>
    cases h' with
    | full => rfl
    | found hfits => omega
    | jump hfits => omega
  | found hfits hfree =>
    cases h' with
    | full hfull => omega
    | found => rfl
    | jump _ hfind =>
      rw [hfree] at hfind
      cases hfind
  | jump hfits hfind _ ih =>
    cases h' with
    | full hfull => omega
    | found _ hfree =>
      rw [hfree] at hfind
      cases hfind
    | jump _ hfind' hrest =>
      rw [hfind] at hfind'
      cases hfind'
      exact ih hrest

theorem isLowest_some_iff (h : IsLowest vmas len start r) :
    r = some addr ↔ IsLeast {a | FreeRange vmas len start a} addr := by
  cases r with
  | none => exact ⟨nofun, fun hleast => absurd hleast.1 (h addr)⟩
  | some found =>
    rw [Option.some.injEq]
    constructor
    · rintro rfl
      exact h
    · exact fun hleast => h.unique hleast

theorem isLowest_none_iff (h : IsLowest vmas len start r) :
    r = none ↔ ∀ a, ¬ FreeRange vmas len start a := by
  cases r with
  | none => exact ⟨fun _ => h, fun _ => rfl⟩
  | some found => exact ⟨nofun, fun hnone => absurd h.1 (hnone found)⟩

end Search

section Choice

theorem firstCandidate_lt (space : AddressSpace) (addrHint : Option Nat) :
    space.firstCandidate addrHint < 2 ^ 64 := by
  have hlt : ∀ a, alignUpPage a < 2 ^ 64 := by grind
  refine max_lt ?_ (by decide)
  cases hhinted : (addrHint.map alignUpPage).filter fun a =>
      mmapBaseStart ≤ a && a < mmapBaseEnd with
  | none => exact hlt _
  | some a =>
    obtain ⟨ha, -⟩ := Option.filter_eq_some_iff.mp hhinted
    obtain ⟨hint, -, rfl⟩ := Option.map_eq_some_iff.mp ha
    exact hlt hint

variable {space : AddressSpace} {addrHint : Option Nat} {len : Nat} {flags : BitVec 32}

theorem chooseRange_ok_iff (hflags : flags &&& mapFixed = 0) :
    (∃ space', space.chooseRange addrHint len flags = .ok (addr, space')) ↔
      searchRange space.vmas len (space.vmas.length + 1) (space.firstCandidate addrHint) =
        some addr := by
  simp only [AddressSpace.chooseRange, hflags, ne_eq, not_true_eq_false, if_false]
  cases searchRange space.vmas len (space.vmas.length + 1) (space.firstCandidate addrHint) with
  | none => exact ⟨by rintro ⟨_, ⟨⟩⟩, by rintro ⟨⟩⟩
  | some candidate =>
    constructor
    · rintro ⟨space', heq⟩
      cases heq
      rfl
    · intro heq
      cases heq
      exact ⟨_, rfl⟩

theorem chooseRange_error_iff (hflags : flags &&& mapFixed = 0) :
    space.chooseRange addrHint len flags = .error .outOfMemory ↔
      searchRange space.vmas len (space.vmas.length + 1)
        (space.firstCandidate addrHint) = none := by
  simp only [AddressSpace.chooseRange, hflags, ne_eq, not_true_eq_false, if_false]
  cases searchRange space.vmas len (space.vmas.length + 1) (space.firstCandidate addrHint) with
  | none => exact ⟨fun _ => rfl, fun _ => rfl⟩
  | some candidate => exact ⟨by rintro ⟨⟩, by rintro ⟨⟩⟩

/-- The search ends; `mmap` takes the lowest free range from its first candidate on, and
refuses only if there is none. -/
structure PlacesLowest (space : AddressSpace) (addrHint : Option Nat) (len : Nat)
    (flags : BitVec 32) : Prop where
  ends : ∃! r, SearchEnds space.vmas len (space.firstCandidate addrHint) r
  placed : ∀ addr, (∃ space', space.chooseRange addrHint len flags = .ok (addr, space')) ↔
    IsLeast {a | FreeRange space.vmas len (space.firstCandidate addrHint) a} addr
  refused : space.chooseRange addrHint len flags = .error .outOfMemory ↔
    ∀ a, ¬ FreeRange space.vmas len (space.firstCandidate addrHint) a

theorem Placeable.placesLowest (hflags : flags &&& mapFixed = 0) (hlen : 0 < len)
    (hnowrap : ∀ area ∈ space.vmas, area.start + area.size < 2 ^ 64)
    (h : Placeable space.vmas len (space.firstCandidate addrHint)) :
    PlacesLowest space addrHint len flags := by
  have hrounds : areasBehind space.vmas (space.firstCandidate addrHint) < space.vmas.length + 1 :=
    Nat.lt_succ_of_le List.countP_le_length
  obtain ⟨hends, hlowest⟩ :=
    h.searchRange_ends hlen hnowrap (firstCandidate_aligned space addrHint) hrounds
  refine ⟨⟨_, hends, fun r hr => hr.unique hends⟩, fun addr => ?_, ?_⟩
  · rw [chooseRange_ok_iff hflags, isLowest_some_iff hlowest]
  · rw [chooseRange_error_iff hflags, isLowest_none_iff hlowest]

theorem PlacesLowest.placeable (hflags : flags &&& mapFixed = 0)
    (hnowrap : ∀ area ∈ space.vmas, area.start + area.size < 2 ^ 64)
    (hrounded : ∀ area ∈ space.vmas, roundedEnd area < 2 ^ 64)
    (hlen : len ≤ mmapBaseEnd ∨ space.firstCandidate addrHint + len < 2 ^ 64)
    (h : PlacesLowest space addrHint len flags) :
    Placeable space.vmas len (space.firstCandidate addrHint) := by
  have hends : SearchEnds space.vmas len (space.firstCandidate addrHint) _ :=
    searchEnds_of_rounded hrounded (Nat.lt_succ_of_le List.countP_le_length)
  constructor
  · rintro addr hleast area hmem hempty ⟨hlo, hhi⟩
    have hsearch := (chooseRange_ok_iff hflags).mp ((h.placed addr).mpr hleast)
    rw [hsearch] at hends
    have hclear := List.find?_eq_none.mp hends.find? area hmem
    have hwindow := hleast.1.window
    have hend : area.endAddr = area.start + area.size := Nat.mod_eq_of_lt (hnowrap area hmem)
    rw [overlaps_iff (by grind)] at hclear
    omega
  · intro hnone
    have hsearch := (chooseRange_error_iff hflags).mp (h.refused.mpr hnone)
    rw [hsearch] at hends
    exact searchInRange_of_ends hrounded (firstCandidate_lt space addrHint) hlen hends

/-- The search of `mmap` ends with the lowest free range, or refuses if there is none, whenever
the lowest free range has no empty area inside and a search for which there is none does not
wrap around; and only then, unless an area ends in the last page of the address space, or
the range is longer than the window and wraps around at the first candidate. -/
theorem placement_lowest (space : AddressSpace) (addrHint : Option Nat) (length : Nat)
    (flags : BitVec 32) (hflags : flags &&& mapFixed = 0)
    (hnowrap : ∀ area ∈ space.vmas, area.start + area.size < 2 ^ 64)
    (hlength : 0 < alignUpPage length ∧ alignUpPage length < 2 ^ 47) :
    (Placeable space.vmas (alignUpPage length) (space.firstCandidate addrHint) →
      PlacesLowest space addrHint (alignUpPage length) flags) ∧
    ((∀ area ∈ space.vmas, roundedEnd area < 2 ^ 64) →
      alignUpPage length ≤ mmapBaseEnd ∨
        space.firstCandidate addrHint + alignUpPage length < 2 ^ 64 →
      PlacesLowest space addrHint (alignUpPage length) flags →
      Placeable space.vmas (alignUpPage length) (space.firstCandidate addrHint)) :=
  ⟨fun h => h.placesLowest hflags hlength.1 hnowrap,
    fun hrounded hlen h => h.placeable hflags hnowrap hrounded hlen⟩

end Choice

theorem placeable_of_low {vmas : List VmArea} {len : Nat} (hstart : start + len < 2 ^ 64)
    (h : ∀ area ∈ vmas, 0 < area.size ∧ roundedEnd area + len < 2 ^ 64) :
    Placeable vmas len start := by
  refine ⟨fun _ _ area hmem hempty => absurd hempty (Nat.ne_of_gt (h area hmem).1), fun _ => ?_⟩
  intro candidate hreached _
  constructor
  · cases hreached with
    | start => exact hstart
    | jump _ _ hfind =>
      have hlow := (h _ (List.mem_of_find?_eq_some hfind)).2
      rwa [alignUpPage_endAddr _ (by omega)]
  · intro existing hfind
    have hlow := (h existing (List.mem_of_find?_eq_some hfind)).2
    omega

section Sample

def spaceOf (vmas : List VmArea) : AddressSpace :=
  ⟨0x200000, [], vmas, mmapBaseStart, defaultUserHeapStart, defaultUserHeapStart⟩

def emptySpace : SpaceState :=
  ⟨fun _ _ => 0, Pmm.mk fun _ => 0, spaceOf []⟩

def firstPageTaken : AddressSpace :=
  spaceOf [VmArea.new mmapBaseStart 0x1000 protRead mapPrivate false .mmap]

/-- The second page is the lowest free one. -/
theorem placement_behind_first_page :
    IsLeast {a | FreeRange firstPageTaken.vmas (alignUpPage 1)
      (firstPageTaken.firstCandidate none) a}
      0x60001000 := by
  have hplaced := (placement_lowest firstPageTaken none 1 0 (by decide) (by decide) (by decide)).1
    (placeable_of_low (by decide) (by decide))
  exact (hplaced.placed 0x60001000).mp ⟨_, rfl⟩

/-- The area that `mmap` with `MAP_FIXED` makes of almost the whole address space does
not wrap around; behind it the search wraps, and finds the last page. -/
theorem placement_wraps :
    let s := (emptySpace.mmap (some 0x60000000) 0xFFFFFFFF9FFFF000 protRead mapFixed).2
    (s.space.vmas.all fun area => area.start + area.size < 2 ^ 64) = true ∧
      (s.mmap none 4096 protRead 0).1 = .ok 0xFFFFFFFFFFFFF000 ∧
      ∀ a, ¬ FreeRange s.space.vmas 4096 (s.space.firstCandidate none) a := by
  intro s
  have hvmas : s.space.vmas =
      [VmArea.new 0x60000000 0xFFFFFFFF9FFFF000 protRead mapFixed false .mmap] := by
    decide +kernel
  have hfirst : s.space.firstCandidate none = 0x60000000 := by decide +kernel
  rw [hvmas, hfirst]
  refine ⟨by decide +kernel, by decide +kernel, fun a ha => ?_⟩
  have hstart := ha.start_le
  have hwindow : a + 4096 ≤ 0x7F000000 := ha.window
  have hfree := ha.disjoint _ List.mem_cons_self a (Nat.le_refl a) (by omega)
  have hend : (VmArea.new 0x60000000 0xFFFFFFFF9FFFF000 protRead mapFixed false .mmap).endAddr =
      0xFFFFFFFFFFFFF000 := by decide
  rw [VmArea.contains, hend, Bool.and_eq_false_iff, decide_eq_false_iff_not,
    decide_eq_false_iff_not] at hfree
  rcases hfree with hlow | hhigh
  · exact hlow hstart
  · omega

end Sample

end AuraOS.UserSpace
