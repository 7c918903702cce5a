import AuraOS.AreaEffects

namespace AuraOS.UserSpace

open PhysicalFrames VirtualAreas

variable {area : VmArea} {x start stop : Nat} {pages : List (Nat × Nat)}

def AddressSpace.findVma (space : AddressSpace) (addr : Nat) : Option VmArea :=
  space.vmas.find? (·.contains addr)

structure AreaKind where
  prot : BitVec 32
  flags : BitVec 32
  isGuardPage : Bool
  name : AreaName
  deriving DecidableEq

def VmArea.kind (area : VmArea) : AreaKind :=
  ⟨area.prot, area.flags, area.isGuardPage, area.name⟩

structure AreaSound (area : VmArea) : Prop where
  word : area.start < 2 ^ 64 ∧ area.size < 2 ^ 64
  aligned : area.start % pageSize = 0 ∧ area.size % pageSize = 0
  inside : ∀ entry ∈ area.populatedPages, area.contains entry.1 = true

def Apart (area other : VmArea) : Prop :=
  ∀ x, area.contains x = true → other.contains x = false

structure AreasSound (vmas : List VmArea) : Prop where
  sound : ∀ area ∈ vmas, AreaSound area
  apart : vmas.Pairwise Apart

theorem contains_iff : area.contains x = true ↔ area.start ≤ x ∧ x < area.endAddr := by
  simp [VmArea.contains]

/-- What `munmap` makes of one area. -/
structure Cut (lo hi : Nat) (area : VmArea) (parts : List VmArea) : Prop where
  sound : ∀ part ∈ parts, AreaSound part
  kind : ∀ part ∈ parts, VmArea.kind part = VmArea.kind area
  contains : ∀ x, (∃ part ∈ parts, part.contains x = true) ↔
    area.contains x = true ∧ ¬ (lo ≤ x ∧ x < hi)
  apart : parts.Pairwise Apart
  recorded : ∀ part ∈ parts, ∀ entry ∈ part.populatedPages, entry ∈ area.populatedPages
  kept : ∀ entry ∈ area.populatedPages, ¬ (lo ≤ entry.1 ∧ entry.1 < hi) →
    ∃ part ∈ parts, entry ∈ part.populatedPages

section Parts

variable {area : VmArea} {lo hi : Nat}

theorem part_kind : VmArea.kind (VmArea.part area start stop pages) = VmArea.kind area :=
  rfl

theorem part_contains (hle : start ≤ stop) (hstop : stop < 2 ^ 64) :
    (VmArea.part area start stop pages).contains x = true ↔ start ≤ x ∧ x < stop := by
  have hend : (VmArea.part area start stop pages).endAddr = stop := by
    simp only [VmArea.endAddr, VmArea.part, add64, sub64]
    omega
  rw [contains_iff, hend]
  rfl

theorem part_sound (hle : start ≤ stop) (hstop : stop < 2 ^ 64) (hstart : start % pageSize = 0)
    (halign : stop % pageSize = 0) (hpages : ∀ entry ∈ pages, start ≤ entry.1 ∧ entry.1 < stop) :
    AreaSound (VmArea.part area start stop pages) := by
  refine ⟨?_, ?_, fun entry hentry => (part_contains hle hstop).mpr (hpages entry hentry)⟩
  · simp only [VmArea.part, sub64]
    omega
  · simp only [VmArea.part, sub64, pageSize] at *
    omega

theorem endAddr_aligned (h : AreaSound area) : area.endAddr % pageSize = 0 := by
  have haligned := h.aligned
  grind

theorem endAddr_lt (area : VmArea) : area.endAddr < 2 ^ 64 :=
  Nat.mod_lt _ (by decide)

theorem cut_spec (h : AreaSound area) {len : Nat} (hhi : lo + len < 2 ^ 64)
    (hloAlign : lo % pageSize = 0) (hhiAlign : (lo + len) % pageSize = 0) :
    Cut lo (lo + len) area (VmArea.cut lo (lo + len) len area) := by
  have hend := endAddr_lt area
  cases hover : area.overlaps lo len with
  | false =>
    rw [cut_of_disjoint hover]
    have hmissed : ¬ (area.start < lo + len ∧ lo < area.endAddr) := by
      rw [← overlaps_iff hhi, hover]
      exact Bool.false_ne_true
    refine ⟨by simpa using h, by simp, fun x => ?_, List.pairwise_singleton _ _, by simp,
      fun entry hmem _ => ⟨area, List.mem_singleton_self _, hmem⟩⟩
    simp only [List.mem_singleton, exists_eq_left, contains_iff]
    omega
  | true =>
    obtain ⟨front, back, heq, hpages⟩ := cut_eq (lo + len) hover
    obtain ⟨rfl, rfl⟩ := hpages (Nat.le_add_right _ _) h.inside
    obtain ⟨hbefore, hbehind⟩ := (overlaps_iff hhi).mp hover
    have hinside := fun entry hentry => contains_iff.mp (h.inside entry hentry)
    have hmem : ∀ part, part ∈ VmArea.cut lo (lo + len) len area ↔
        area.start < lo ∧ part = VmArea.part area area.start lo
          (area.populatedPages.filter (·.1 < lo)) ∨
        lo + len < area.endAddr ∧ part = VmArea.part area (lo + len) area.endAddr
          (area.populatedPages.filter (lo + len ≤ ·.1)) := by
      simp [heq]
    refine ⟨fun part hpart => ?_, fun part hpart => ?_, fun x => ?_, ?_,
      fun part hpart entry hentry => ?_, fun entry hentry hout => ?_⟩
    · rcases (hmem part).mp hpart with ⟨hlt, rfl⟩ | ⟨hlt, rfl⟩
      · refine part_sound (by omega) (by omega) h.aligned.1 hloAlign fun entry hentry => ?_
        obtain ⟨hentry, hside⟩ := List.mem_filter.mp hentry
        exact ⟨(hinside entry hentry).1, of_decide_eq_true hside⟩
      · refine part_sound (by omega) hend hhiAlign (endAddr_aligned h) fun entry hentry => ?_
        obtain ⟨hentry, hside⟩ := List.mem_filter.mp hentry
        exact ⟨of_decide_eq_true hside, (hinside entry hentry).2⟩
    · rcases (hmem part).mp hpart with ⟨-, rfl⟩ | ⟨-, rfl⟩ <;> exact part_kind
    · rw [contains_iff]
      constructor
      · rintro ⟨part, hpart, hx⟩
        rcases (hmem part).mp hpart with ⟨hlt, rfl⟩ | ⟨hlt, rfl⟩
        · have hx := (part_contains (by omega) (by omega)).mp hx
          omega
        · have hx := (part_contains (by omega) hend).mp hx
          omega
      · rintro ⟨hx, hout⟩
        by_cases hlt : x < lo
        · exact ⟨_, (hmem _).mpr (.inl ⟨by omega, rfl⟩),
            (part_contains (by omega) (by omega)).mpr ⟨hx.1, hlt⟩⟩
        · exact ⟨_, (hmem _).mpr (.inr ⟨by omega, rfl⟩),
            (part_contains (by omega) hend).mpr ⟨by omega, hx.2⟩⟩
    · rw [heq, List.pairwise_append]
      refine ⟨by split <;> simp, by split <;> simp, fun part hpart other hother x hx => ?_⟩
      simp only [List.mem_ite_nil_right, List.mem_singleton] at hpart hother
      obtain ⟨⟨hfront, rfl⟩, hback, rfl⟩ := And.intro hpart hother
      rw [part_contains (by omega) (by omega)] at hx
      rw [← Bool.not_eq_true, part_contains (by omega) hend]
      omega
    · rcases (hmem part).mp hpart with ⟨-, rfl⟩ | ⟨-, rfl⟩ <;> exact (List.mem_filter.mp hentry).1
    · have hin := hinside entry hentry
      by_cases hlt : entry.1 < lo
      · exact ⟨_, (hmem _).mpr (.inl ⟨by omega, rfl⟩),
          List.mem_filter.mpr ⟨hentry, decide_eq_true hlt⟩⟩
      · exact ⟨_, (hmem _).mpr (.inr ⟨by omega, rfl⟩),
          List.mem_filter.mpr ⟨hentry, decide_eq_true (by omega)⟩⟩

end Parts

section Areas

variable {vmas : List VmArea} {lo hi : Nat} {parts : VmArea → List VmArea}

theorem find?_contains_iff (h : vmas.Pairwise Apart) :
    vmas.find? (·.contains x) = some area ↔ area ∈ vmas ∧ area.contains x = true := by
  induction vmas with
  | nil => simp
  | cons first rest ih =>
    obtain ⟨hfirst, hrest⟩ := List.pairwise_cons.mp h
    rw [List.find?_cons, List.mem_cons]
    cases hcontains : first.contains x with
    | true =>
      constructor
      · intro hfound
        cases hfound
        exact ⟨.inl rfl, hcontains⟩
      · rintro ⟨rfl | hmem, hx⟩
        · rfl
        · rw [hfirst area hmem x hcontains] at hx
          cases hx
    | false =>
      rw [ih hrest]
      constructor
      · rintro ⟨hmem, hx⟩
        exact ⟨.inr hmem, hx⟩
      · rintro ⟨rfl | hmem, hx⟩
        · rw [hcontains] at hx
          cases hx
        · exact ⟨hmem, hx⟩

variable (h : AreasSound vmas) (hcut : ∀ area ∈ vmas, Cut lo hi area (parts area))
include h hcut

theorem areasSound_flatMap : AreasSound (vmas.flatMap parts) where
  sound := by
    intro part hpart
    obtain ⟨area, harea, hmem⟩ := List.mem_flatMap.mp hpart
    exact (hcut area harea).sound part hmem
  apart := by
    refine List.pairwise_flatMap.mpr ⟨fun area harea => (hcut area harea).apart, ?_⟩
    refine h.apart.imp_of_mem ?_
    intro area other harea hother hapart part hpart part' hpart' x hx
    -- a part contains nothing that its area does not contain
    have hin := (((hcut area harea).contains x).mp ⟨part, hpart, hx⟩).1
    rw [← Bool.not_eq_true]
    intro hx'
    have hin' := (((hcut other hother).contains x).mp ⟨part', hpart', hx'⟩).1
    rw [hapart x hin] at hin'
    cases hin'

theorem find?_flatMap_iff {part : VmArea} :
    (vmas.flatMap parts).find? (·.contains x) = some part ↔
      ∃ area, vmas.find? (·.contains x) = some area ∧ part ∈ parts area ∧
        part.contains x = true := by
  rw [find?_contains_iff (areasSound_flatMap h hcut).apart, List.mem_flatMap]
  constructor
  · rintro ⟨⟨area, harea, hmem⟩, hx⟩
    have hin := (((hcut area harea).contains x).mp ⟨part, hmem, hx⟩).1
    exact ⟨area, (find?_contains_iff h.apart).mpr ⟨harea, hin⟩, hmem, hx⟩
  · rintro ⟨area, hfind, hmem, hx⟩
    exact ⟨⟨area, ((find?_contains_iff h.apart).mp hfind).1, hmem⟩, hx⟩

theorem find?_flatMap_inside (hx : lo ≤ x ∧ x < hi) :
    (vmas.flatMap parts).find? (·.contains x) = none := by
  rw [Option.eq_none_iff_forall_not_mem]
  intro part hpart
  obtain ⟨area, hfind, hmem, hcontains⟩ := (find?_flatMap_iff h hcut).mp hpart
  have harea := ((find?_contains_iff h.apart).mp hfind).1
  exact (((hcut area harea).contains x).mp ⟨part, hmem, hcontains⟩).2 hx

theorem find?_flatMap_outside (hx : ¬ (lo ≤ x ∧ x < hi)) :
    ((vmas.flatMap parts).find? (·.contains x)).map VmArea.kind =
      (vmas.find? (·.contains x)).map VmArea.kind := by
  cases hfind : vmas.find? (·.contains x) with
  | none =>
    have hnone : (vmas.flatMap parts).find? (·.contains x) = none := by
      rw [Option.eq_none_iff_forall_not_mem]
      intro part hpart
      obtain ⟨area, harea, -⟩ := (find?_flatMap_iff h hcut).mp hpart
      rw [hfind] at harea
      cases harea
    rw [hnone]
  | some area =>
    obtain ⟨harea, hcontains⟩ := (find?_contains_iff h.apart).mp hfind
    obtain ⟨part, hmem, hpart⟩ := ((hcut area harea).contains x).mpr ⟨hcontains, hx⟩
    rw [(find?_flatMap_iff h hcut).mpr ⟨area, hfind, hmem, hpart⟩, Option.map_some,
      Option.map_some, (hcut area harea).kind part hmem]

end Areas

theorem munmap_ok {s s' : SpaceState} {addr length : Nat}
    (h : s.munmap addr length = (.ok (), s')) :
    addr % pageSize = 0 ∧
      s'.space.vmas = s.space.vmas.flatMap
        (VmArea.cut addr (add64 addr (alignUpPage length)) (alignUpPage length)) := by
  simp only [SpaceState.munmap] at h
  split at h
  · cases h
  · rename_i hvalid
    cases h
    exact ⟨by omega, rfl⟩

/-- After `munmap` no address of the range is in an area or on a populated page; all
other addresses are in areas of the same kind as before, and their populated pages are
still recorded, in the area that contains them. -/
theorem munmap_exact (s s' : SpaceState) (addr length : Nat) (h : AreasSound s.space.vmas)
    (hfits : addr + alignUpPage length < 2 ^ 64) (hok : s.munmap addr length = (.ok (), s')) :
    (∀ x, addr ≤ x → x < addr + alignUpPage length →
      s'.space.findVma x = none ∧
        ∀ area ∈ s'.space.vmas, ∀ entry ∈ area.populatedPages, entry.1 ≠ alignDownPage x) ∧
    (∀ x, ¬ (addr ≤ x ∧ x < addr + alignUpPage length) →
      (s'.space.findVma x).map VmArea.kind = (s.space.findVma x).map VmArea.kind) ∧
    (∀ area ∈ s.space.vmas, ∀ entry ∈ area.populatedPages,
      ¬ (addr ≤ entry.1 ∧ entry.1 < addr + alignUpPage length) →
        ∃ part, s'.space.findVma entry.1 = some part ∧ entry ∈ part.populatedPages) ∧
    AreasSound s'.space.vmas := by
  obtain ⟨haddr, hvmas⟩ := munmap_ok hok
  have hstop : add64 addr (alignUpPage length) = addr + alignUpPage length :=
    Nat.mod_eq_of_lt hfits
  rw [hstop] at hvmas
  have hcut : ∀ area ∈ s.space.vmas, Cut addr (addr + alignUpPage length) area
      (VmArea.cut addr (addr + alignUpPage length) (alignUpPage length) area) := fun area harea =>
    cut_spec (h.sound area harea) hfits haddr (by grind)
  have hsound := areasSound_flatMap h hcut
  simp only [AddressSpace.findVma, hvmas]
  refine ⟨fun x hlo hhi => ?_, fun x hx => find?_flatMap_outside h hcut hx, ?_, hsound⟩
  · refine ⟨find?_flatMap_inside h hcut ⟨hlo, hhi⟩, fun part hpart entry hentry heq => ?_⟩
    -- the page of the address lies in the range, but the part contains what it records
    have hpage : addr ≤ alignDownPage x ∧ alignDownPage x < addr + alignUpPage length := by
      grind
    have hnone := find?_flatMap_inside h hcut hpage
    rw [← heq] at hnone
    have hcontains := List.find?_eq_none.mp hnone part hpart
    exact hcontains ((hsound.sound part hpart).inside entry hentry)
  · intro area harea entry hentry hout
    obtain ⟨part, hmem, hrecorded⟩ := (hcut area harea).kept entry hentry hout
    refine ⟨part, (find?_contains_iff hsound.apart).mpr ⟨?_, ?_⟩, hrecorded⟩
    · exact List.mem_flatMap.mpr ⟨area, harea, hmem⟩
    · exact ((hcut area harea).sound part hmem).inside entry hrecorded

section Sample

def threePages : VmArea :=
  ⟨0x60000000, 0x3000, protRead, mapPrivate, false, .mmap,
    [(0x60000000, 0x300000), (0x60001000, 0x301000), (0x60002000, 0x302000)]⟩

def threePagesSpace : SpaceState :=
  ⟨fun _ _ => 0, Pmm.mk fun _ => 0, ⟨0x200000, [], [threePages], mmapBaseStart,
    defaultUserHeapStart, defaultUserHeapStart⟩⟩

theorem areasSound_threePages : AreasSound [threePages] := by
  refine ⟨?_, List.pairwise_singleton _ _⟩
  simp only [List.forall_mem_singleton]
  exact ⟨by decide, by decide, by decide⟩

/-- The middle page is unmapped: the page behind it stays recorded. -/
theorem munmap_middle_page :
    ∃ part, ((threePagesSpace.munmap 0x60001000 1).2.space.findVma 0x60002000) = some part ∧
      (0x60002000, 0x302000) ∈ part.populatedPages :=
  (munmap_exact threePagesSpace (threePagesSpace.munmap 0x60001000 1).2 0x60001000 1
    areasSound_threePages (by decide) rfl).2.2.1 threePages (by decide) (0x60002000, 0x302000)
    (by decide) (by decide)

end Sample

end AuraOS.UserSpace
