import AuraOS.AreaEffects
import AuraOS.GuardedRuns
import AuraOS.IntervalLists

namespace AuraOS.UserSpace

open GuardedRuns IntervalLists PageTables PhysicalFrames VirtualAreas

variable {a b start size candidate len vaddr stop idx newBrk kernelCr3 numPages : Nat}
  {area p q area' : VmArea} {vmas before after : List VmArea} {pieces : VmArea → List VmArea}
  {space space' : AddressSpace} {addrHint : Option Nat} {flags : BitVec 32} {s : SpaceState}
  {mem : Mem} {pmm : Pmm}

def interval (area : VmArea) : Interval :=
  ⟨area.start, area.size⟩

attribute [grind =] interval

structure AreasOk (vmas : List VmArea) : Prop where
  disjoint : vmas.Pairwise fun a b => (interval a).Disjoint (interval b)
  aligned : ∀ a ∈ vmas, a.start % pageSize = 0
  sized : ∀ a ∈ vmas, 0 < a.size ∧ a.size % pageSize = 0

section Arithmetic

theorem add64_eq (h : a + b < 2 ^ 64) : add64 a b = a + b :=
  Nat.mod_eq_of_lt h

theorem sub64_eq (hle : b ≤ a) (ha : a < 2 ^ 64) : sub64 a b = a - b := by
  grind

theorem alignUpPage_eq (h : a ≤ 2 ^ 63) :
    alignUpPage a % pageSize = 0 ∧ a ≤ alignUpPage a ∧ alignUpPage a < a + pageSize := by
  grind

theorem alignUpPage_of_aligned (h : a ≤ 2 ^ 63) (haligned : a % pageSize = 0) :
    alignUpPage a = a := by
  grind

end Arithmetic

/-- A single area of a reachable space: whole pages, below the canonical limit
unless it is a guard page whose address wrapped. -/
structure AreaOk (area : VmArea) : Prop where
  aligned : area.start % pageSize = 0
  pos : 0 < area.size
  pages : area.size % pageSize = 0
  placed : area.start + area.size ≤ 2 ^ 48 ∨ 2 ^ 48 ≤ area.start ∧ area.start + area.size ≤ 2 ^ 64

theorem overlaps_eq_false_iff (h : AreaOk area) (hlow : start + size ≤ 2 ^ 48) :
    area.overlaps start size = false ↔ (interval area).Disjoint ⟨start, size⟩ := by
  have hplaced := h.placed
  simp only [VmArea.overlaps, Bool.not_eq_false', Bool.or_eq_true, decide_eq_true_eq]
  grind

theorem any_overlaps_eq_false (h : ∀ a ∈ vmas, AreaOk a) (hlow : start + size ≤ 2 ^ 48) :
    vmas.any (·.overlaps start size) = false ↔ ∀ a ∈ vmas, (interval a).Disjoint ⟨start, size⟩ := by
  rw [List.any_eq_false]
  refine forall₂_congr fun a ha => ?_
  rw [Bool.not_eq_true, overlaps_eq_false_iff (h a ha) hlow]

theorem endAddr_eq_of_low (h : area.start + area.size ≤ 2 ^ 48) :
    area.endAddr = area.start + area.size :=
  add64_eq (by omega)

section Cut

variable {area : VmArea} {lo hi : Nat}

/-- The pieces that `munmap` leaves lie inside the area and outside the range,
and together they are the area without the range. -/
structure Pieces (area : VmArea) (lo hi : Nat) (pieces : List VmArea) : Prop where
  ok : ∀ p ∈ pieces, AreaOk p
  name : ∀ p ∈ pieces, p.name = area.name
  inside : ∀ p ∈ pieces, area.start ≤ p.start ∧ p.start + p.size ≤ area.start + area.size
  covers : ∀ x, Covers (pieces.map interval) x ↔
    (interval area).Has x ∧ ¬ Interval.Has ⟨lo, hi - lo⟩ x
  disjoint : pieces.Pairwise fun a b => (interval a).Disjoint (interval b)

theorem pieces_of_one (hok : AreaOk p) (hname : p.name = area.name)
    (hinside : area.start ≤ p.start ∧ p.start + p.size ≤ area.start + area.size)
    (hcovers : ∀ x, (interval p).Has x ↔
      (interval area).Has x ∧ ¬ Interval.Has ⟨lo, hi - lo⟩ x) : Pieces area lo hi [p] where
  ok := by simpa using hok
  name := by simpa using hname
  inside := by simpa using hinside
  covers := by
    intro x
    simp only [List.map_singleton, covers_cons, covers_nil, or_false]
    exact hcovers x
  disjoint := List.pairwise_singleton _ _

theorem cut_pieces (h : AreaOk area) (hle : lo ≤ hi) (hlow : hi ≤ 2 ^ 48) (hlo : lo % pageSize = 0)
    (hhi : hi % pageSize = 0) : Pieces area lo hi (VmArea.cut lo hi (hi - lo) area) := by
  have hdisjoint := overlaps_eq_false_iff h (by omega : lo + (hi - lo) ≤ 2 ^ 48)
  cases hover : area.overlaps lo (hi - lo) with
  | false =>
    rw [cut_of_disjoint hover]
    exact pieces_of_one h rfl ⟨le_rfl, le_rfl⟩ fun x =>
      ⟨fun hx => ⟨hx, (hdisjoint.mp hover).not_has hx⟩, And.left⟩
  | true =>
    rw [hover] at hdisjoint
    obtain ⟨front, back, heq, -⟩ := cut_eq hi hover
    obtain ⟨haligned, hpos, hpages, hplaced⟩ := h
    simp only [Bool.true_eq_false, false_iff, Interval.Disjoint, Interval.stop, interval]
      at hdisjoint
    have hend : area.endAddr = area.start + area.size := endAddr_eq_of_low (by omega)
    have hintervals : (VmArea.cut lo hi (hi - lo) area).map interval =
        (if area.start < lo then [⟨area.start, lo - area.start⟩] else []) ++
          (if hi < area.start + area.size then [⟨hi, area.start + area.size - hi⟩] else []) := by
      rw [heq, hend]
      split <;> split <;> simp only [List.nil_append, List.append_nil, List.cons_append,
        List.map_cons, List.map_nil, interval, part_fields] <;> congr <;> grind
    have hmem : ∀ p ∈ VmArea.cut lo hi (hi - lo) area,
        area.start < lo ∧ p.start = area.start ∧ p.size = lo - area.start ∨
          hi < area.start + area.size ∧ p.start = hi ∧ p.size = area.start + area.size - hi := by
      intro p hp
      have hin := List.mem_map_of_mem (f := interval) hp
      rw [hintervals] at hin
      simpa [interval] using hin
    refine ⟨fun p hp => ?_, fun p hp => ?_, fun p hp => ?_, fun x => ?_, ?_⟩
    · rcases hmem p hp with ⟨hlt, hstart, hsize⟩ | ⟨hlt, hstart, hsize⟩ <;> constructor <;> grind
    · rcases mem_cut hp with ⟨rfl, -⟩ | ⟨-, pages, ⟨-, rfl⟩ | ⟨-, rfl⟩⟩ <;> rfl
    · rcases hmem p hp with ⟨hlt, hstart, hsize⟩ | ⟨hlt, hstart, hsize⟩ <;>
        rw [hstart, hsize] <;> omega
    · rw [hintervals]
      split <;> split <;>
        simp only [List.nil_append, List.append_nil, List.cons_append, covers_cons, covers_nil,
          or_false, false_iff, interval, Interval.Has, Interval.stop] <;> omega
    · rw [← List.pairwise_map (f := interval), hintervals]
      split <;> split <;> simp [Interval.Disjoint, Interval.stop]
      omega

/-- What `munmap` makes of the list of areas. -/
def cutAll (lo hi : Nat) (vmas : List VmArea) : List VmArea :=
  vmas.flatMap (VmArea.cut lo hi (hi - lo))

theorem cutAll_of_disjoint (h : ∀ a ∈ vmas, a.overlaps lo (hi - lo) = false) :
    cutAll lo hi vmas = vmas := by
  induction vmas with
  | nil => rfl
  | cons a rest ih =>
    rw [cutAll, List.flatMap_cons, cut_of_disjoint (h a (by simp)), ← cutAll,
      ih fun b hb => h b (by simp [hb])]
    rfl

theorem disjoint_of_inside {a b : VmArea} (hab : (interval a).Disjoint (interval b))
    (hp : a.start ≤ p.start ∧ p.start + p.size ≤ a.start + a.size)
    (hq : b.start ≤ q.start ∧ q.start + q.size ≤ b.start + b.size) :
    (interval p).Disjoint (interval q) := by
  grind

theorem flatMap_disjoint (hpieces : ∀ a ∈ vmas, Pieces a lo hi (pieces a))
    (hdisj : vmas.Pairwise fun a b => (interval a).Disjoint (interval b)) :
    (vmas.flatMap pieces).Pairwise fun a b => (interval a).Disjoint (interval b) := by
  rw [List.pairwise_flatMap]
  refine ⟨fun a ha => (hpieces a ha).disjoint, hdisj.imp_of_mem ?_⟩
  intro a b ha hb hab p hp q hq
  exact disjoint_of_inside hab ((hpieces a ha).inside p hp) ((hpieces b hb).inside q hq)

end Cut

/-- The invariant of the area list and of the bounds that steer `mmap` and `brk`. -/
structure SpaceAreas (space : AddressSpace) : Prop where
  ok : ∀ a ∈ space.vmas, AreaOk a
  disjoint : space.vmas.Pairwise fun a b => (interval a).Disjoint (interval b)
  heapStart : space.heapStart = defaultUserHeapStart
  heapEnd : defaultUserHeapStart ≤ space.heapEnd ∧ space.heapEnd ≤ mmapBaseStart
  heap : ∀ a ∈ space.vmas, a.name = .heap →
    defaultUserHeapStart ≤ a.start ∧ a.start + a.size ≤ alignUpPage space.heapEnd
  bump : space.mmapBumpPtr ≤ mmapBaseEnd

theorem SpaceAreas.areasOk (h : SpaceAreas space) : AreasOk space.vmas where
  disjoint := h.disjoint
  aligned := fun a ha => (h.ok a ha).aligned
  sized := fun a ha => ⟨(h.ok a ha).pos, (h.ok a ha).pages⟩

theorem SpaceAreas.frames (h : SpaceAreas space) (frames : List Nat) :
    SpaceAreas { space with allocatedFrames := frames } :=
  ⟨h.ok, h.disjoint, h.heapStart, h.heapEnd, h.heap, h.bump⟩

theorem SpaceAreas.flatMap (h : SpaceAreas space) (lo hi : Nat)
    (hpieces : ∀ a ∈ space.vmas, Pieces a lo hi (pieces a)) :
    SpaceAreas { space with vmas := space.vmas.flatMap pieces } := by
  refine ⟨?_, flatMap_disjoint hpieces h.disjoint, h.heapStart, h.heapEnd, ?_, h.bump⟩
  · intro p hp
    obtain ⟨a, ha, hpa⟩ := List.mem_flatMap.mp hp
    exact (hpieces a ha).ok p hpa
  · intro p hp hname
    obtain ⟨a, ha, hpa⟩ := List.mem_flatMap.mp hp
    obtain ⟨hle, hge⟩ := (hpieces a ha).inside p hpa
    obtain ⟨hlow, hhigh⟩ := h.heap a ha (((hpieces a ha).name p hpa).symm.trans hname)
    exact ⟨Nat.le_trans hlow hle, Nat.le_trans hge hhigh⟩

section Munmap

variable {s : SpaceState} {addr length : Nat}

theorem unmapAreas_eq (vmas : List VmArea) (hlength : 0 < length) (haligned : addr % pageSize = 0)
    (hlow : addr + alignUpPage length ≤ 2 ^ 48) :
    unmapAreas addr length vmas = cutAll addr (addr + alignUpPage length) vmas := by
  have hguard : ¬ (length = 0 ∨ addr % pageSize ≠ 0) := by omega
  have hend : add64 addr (alignUpPage length) = addr + alignUpPage length := add64_eq (by omega)
  have hlen : addr + alignUpPage length - addr = alignUpPage length := by omega
  rw [unmapAreas, if_neg hguard, cutAll, hend, hlen]

theorem munmap_vmas (s : SpaceState) (hlength : 0 < length) (haligned : addr % pageSize = 0)
    (hlow : addr + alignUpPage length ≤ 2 ^ 48) :
    (s.munmap addr length).2.space.vmas = cutAll addr (addr + alignUpPage length) s.space.vmas := by
  obtain ⟨frames, hspace⟩ := munmap_space s addr length
  rw [hspace]
  exact unmapAreas_eq s.space.vmas hlength haligned hlow

theorem unmapAreas_pages (vmas : List VmArea) {lo hi : Nat} (hlo : lo % pageSize = 0)
    (hhi : hi % pageSize = 0) (hlt : lo < hi) (hlow : hi ≤ 2 ^ 48) :
    unmapAreas lo (hi - lo) vmas = cutAll lo hi vmas := by
  have hlen : alignUpPage (hi - lo) = hi - lo :=
    alignUpPage_of_aligned (by omega) (by grind)
  have hsum : lo + (hi - lo) = hi := by omega
  rw [unmapAreas_eq vmas (by omega) hlo (by omega), hlen, hsum]

/-- The roll-back of `mmap` unmaps a part of a range that was free. -/
theorem unmapAreas_of_disjoint (h : ∀ a ∈ vmas, AreaOk a) (haligned : addr % pageSize = 0)
    (hpages : length % pageSize = 0) (hle : length ≤ len) (hlow : addr + len ≤ 2 ^ 48)
    (hfree : ∀ a ∈ vmas, (interval a).Disjoint ⟨addr, len⟩) :
    unmapAreas addr length vmas = vmas := by
  rcases Nat.eq_zero_or_pos length with rfl | hpos
  · rw [unmapAreas, if_pos (.inl rfl)]
  have halign : alignUpPage length = length := alignUpPage_of_aligned (by omega) hpages
  rw [unmapAreas_eq vmas hpos haligned (by omega), halign]
  refine cutAll_of_disjoint fun a ha => ?_
  rw [Nat.add_sub_cancel_left, overlaps_eq_false_iff (h a ha) (by omega)]
  grind

theorem munmap_refused (h : length = 0 ∨ addr % pageSize ≠ 0) : (s.munmap addr length).2 = s := by
  simp only [SpaceState.munmap, if_pos h]

theorem munmap_areas (h : SpaceAreas s.space) (haddr : addr < 2 ^ 47) (hlength : length < 2 ^ 47) :
    SpaceAreas (s.munmap addr length).2.space := by
  by_cases hrefused : length = 0 ∨ addr % pageSize ≠ 0
  · rw [munmap_refused hrefused]
    exact h
  obtain ⟨halign, hge, hlt⟩ := alignUpPage_eq (a := length) (by omega)
  simp only [pageSize] at halign hlt hrefused
  have hlow : addr + alignUpPage length ≤ 2 ^ 48 := by omega
  have haligned : addr % pageSize = 0 := by
    grind
  obtain ⟨frames, hspace⟩ := munmap_space s addr length
  rw [hspace, unmapAreas_eq _ (by omega) haligned hlow]
  refine (h.flatMap addr (addr + alignUpPage length) fun a ha => ?_).frames frames
  exact cut_pieces (h.ok a ha) (by omega) hlow haligned (by grind)

end Munmap

section Mmap

theorem nextCandidate_spec (hok : ∀ a ∈ vmas, AreaOk a) {existing : VmArea}
    (hlow : candidate + len ≤ 2 ^ 48)
    (hfind : vmas.find? (·.overlaps candidate len) = some existing) :
    existing ∈ vmas ∧ alignUpPage existing.endAddr = existing.endAddr ∧
      existing.endAddr % pageSize = 0 ∧ candidate < existing.endAddr ∧
      existing.endAddr ≤ 2 ^ 48 := by
  have hmem := List.mem_of_find?_eq_some hfind
  have hover : existing.overlaps candidate len = true := by
    simpa using List.find?_some hfind
  obtain ⟨haligned, hpos, hpages, hplaced⟩ := hok existing hmem
  have hdisj : ¬ (interval existing).Disjoint ⟨candidate, len⟩ := by
    rw [← overlaps_eq_false_iff (hok existing hmem) hlow, hover]
    decide
  simp only [Interval.Disjoint, Interval.stop, interval] at hdisj
  have hend : existing.endAddr = existing.start + existing.size := endAddr_eq_of_low (by omega)
  have hendAligned : existing.endAddr % pageSize = 0 := by
    grind
  exact ⟨hmem, alignUpPage_of_aligned (by omega) hendAligned, hendAligned, by omega, by omega⟩

theorem searchRange_spec (hok : ∀ a ∈ vmas, AreaOk a) (hlen : len ≤ 2 ^ 47) (rounds : Nat)
    {found : Nat} (haligned : candidate % pageSize = 0)
    (hlow : mmapBaseStart ≤ candidate ∧ candidate ≤ 2 ^ 48)
    (h : searchRange vmas len rounds candidate = some found) :
    found % pageSize = 0 ∧ mmapBaseStart ≤ found ∧ found + len ≤ mmapBaseEnd ∧
      ∀ a ∈ vmas, (interval a).Disjoint ⟨found, len⟩ := by
  have hend : mmapBaseEnd ≤ 2 ^ 48 := by decide
  obtain ⟨⟨haligned, hlow, hhigh⟩, hfits, hfree⟩ := searchRange_induction
    (P := fun addr => addr % pageSize = 0 ∧ mmapBaseStart ≤ addr ∧ addr ≤ 2 ^ 48)
    (fun candidate existing hcandidate hfits hfind => by
      rw [add64_eq (by omega)] at hfits
      obtain ⟨-, halign, hnext, hlt, hle⟩ := nextCandidate_spec hok (by omega) hfind
      rw [halign]
      exact ⟨hnext, by omega, hle⟩) ⟨haligned, hlow⟩ h
  rw [add64_eq (by omega)] at hfits
  exact ⟨haligned, hlow, hfits, fun a ha =>
    (overlaps_eq_false_iff (hok a ha) (by omega)).mp (hfree a ha)⟩

theorem firstCandidate_spec (h : SpaceAreas space) (hhint : ∀ a, addrHint = some a → a < 2 ^ 47) :
    space.firstCandidate addrHint % pageSize = 0 ∧
      mmapBaseStart ≤ space.firstCandidate addrHint ∧
      space.firstCandidate addrHint ≤ 2 ^ 48 := by
  have hbump := h.bump
  have hend : mmapBaseEnd = 0x7F000000 := rfl
  have hstart : mmapBaseStart = 0x60000000 := rfl
  obtain ⟨hb₁, hb₂, hb₃⟩ := alignUpPage_eq (a := space.mmapBumpPtr) (by omega)
  simp only [AddressSpace.firstCandidate, pageSize] at *
  cases addrHint with
  | none =>
    grind
  | some a =>
    have ha := hhint a rfl
    obtain ⟨ha₁, ha₂, ha₃⟩ := alignUpPage_eq (a := a) (by omega)
    simp only [pageSize] at ha₁ ha₂ ha₃
    by_cases hin : mmapBaseStart ≤ alignUpPage a ∧ alignUpPage a < mmapBaseEnd
    · simp only [Option.map_some, Option.filter_some, hin, decide_true, Bool.and_true, if_true,
        Option.getD_some]
      omega
    · have hout : (decide (mmapBaseStart ≤ alignUpPage a) &&
          decide (alignUpPage a < mmapBaseEnd)) = false := by
        simpa using hin
      simp only [Option.map_some, Option.filter_some, hout, Bool.false_eq_true, if_false,
        Option.getD_none]
      omega

theorem chooseRange_spec (h : SpaceAreas space) (hhint : ∀ a, addrHint = some a → a < 2 ^ 47)
    (hlen : len ≤ 2 ^ 47) (hchoose : space.chooseRange addrHint len flags = .ok (vaddr, space')) :
    SpaceAreas space' ∧ space'.vmas = space.vmas ∧ vaddr % pageSize = 0 ∧
      vaddr + len ≤ 2 ^ 48 ∧ ∀ a ∈ space.vmas, (interval a).Disjoint ⟨vaddr, len⟩ := by
  by_cases hflags : flags &&& mapFixed = 0
  · obtain ⟨hsearch, rfl⟩ := chooseRange_search hflags hchoose
    obtain ⟨hf₁, hf₂, hf₃⟩ := firstCandidate_spec h hhint
    obtain ⟨haligned, hlo, hhi, hfree⟩ := searchRange_spec h.ok hlen _ hf₁ ⟨hf₂, hf₃⟩ hsearch
    have hend : mmapBaseEnd = 0x7F000000 := rfl
    refine ⟨⟨h.ok, h.disjoint, h.heapStart, h.heapEnd, h.heap, ?_⟩, rfl, haligned, by omega, hfree⟩
    grind
  · obtain ⟨hvaddr, rfl, haligned, hmeets⟩ := chooseRange_fixed hflags hchoose
    have hlow := hhint vaddr hvaddr
    exact ⟨h, rfl, haligned, by omega, fun a ha =>
      (overlaps_eq_false_iff (h.ok a ha) (by omega)).mp (hmeets a ha)⟩

theorem areaOk_new {prot : BitVec 32} {isGuardPage : Bool} {name : AreaName}
    (haligned : start % pageSize = 0) (hpos : 0 < size) (hpages : size % pageSize = 0)
    (hlow : start + size ≤ 2 ^ 48) : AreaOk (VmArea.new start size prot flags isGuardPage name) :=
  ⟨haligned, hpos, hpages, .inl hlow⟩

theorem AreaOk.resize (h : AreaOk area) (hstop : stop % pageSize = 0) (hlt : area.start < stop)
    (hlow : stop ≤ 2 ^ 48) : AreaOk { area with size := stop - area.start } := by
  have haligned := h.aligned
  simp only [pageSize] at haligned hstop
  have hpages : (stop - area.start) % 4096 = 0 := by omega
  have hsum : area.start + (stop - area.start) ≤ 2 ^ 48 := by omega
  exact ⟨h.aligned, Nat.sub_pos_of_lt hlt, hpages, .inl hsum⟩

theorem SpaceAreas.append (h : SpaceAreas space) (hok : AreaOk area)
    (hfree : ∀ a ∈ space.vmas, (interval a).Disjoint (interval area))
    (hheap : area.name = .heap → defaultUserHeapStart ≤ area.start ∧
      area.start + area.size ≤ alignUpPage space.heapEnd) :
    SpaceAreas { space with vmas := space.vmas ++ [area] } where
  ok := by
    intro a ha
    rcases List.mem_append.mp ha with ha | ha
    · exact h.ok a ha
    · rw [List.mem_singleton.mp ha]
      exact hok
  disjoint := by
    rw [List.pairwise_append]
    refine ⟨h.disjoint, List.pairwise_singleton _ _, ?_⟩
    intro a ha b hb
    rw [List.mem_singleton.mp hb]
    exact hfree a ha
  heapStart := h.heapStart
  heapEnd := h.heapEnd
  heap := by
    intro a ha hname
    rcases List.mem_append.mp ha with ha | ha
    · exact h.heap a ha hname
    · rw [List.mem_singleton.mp ha] at hname ⊢
      exact hheap hname
  bump := h.bump

theorem mmap_areas (h : SpaceAreas s.space) (hhint : ∀ a, addrHint = some a → a < 2 ^ 47)
    {length : Nat} (hlength : length < 2 ^ 47) (prot flags : BitVec 32) :
    SpaceAreas (s.mmap addrHint length prot flags).2.space := by
  obtain ⟨hpages, hge, hlt⟩ := alignUpPage_eq (a := length) (by omega)
  simp only [pageSize] at hpages hlt
  have heffect := mmap_effect s addrHint length prot flags
  generalize (s.mmap addrHint length prot flags).1 = result,
    (s.mmap addrHint length prot flags).2.space = after at heffect
  cases heffect with
  | refused => exact h
  | rolledBack hpos _ hchoose hk =>
    obtain ⟨h', hvmas, haligned, hlow, hfree⟩ := chooseRange_spec h hhint (by omega) hchoose
    rw [unmapAreas_of_disjoint h'.ok haligned (Nat.mul_mod_left _ _)
      ((Nat.mul_le_mul_right _ hk.le).trans (Nat.div_mul_le_self _ _)) hlow
      (by rw [hvmas]; exact hfree)]
    exact h'.frames _
  | mapped hpos hchoose harea =>
    obtain ⟨h', hvmas, haligned, hlow, hfree⟩ := chooseRange_spec h hhint (by omega) hchoose
    rw [harea]
    refine (h'.append ⟨haligned, ?_, hpages, .inl hlow⟩ ?_ ?_).frames _
    · simp only [VmArea.new]
      omega
    · rw [hvmas]
      exact hfree
    · intro hheap
      cases hheap

end Mmap

theorem pairwise_disjoint_middle :
    (before ++ area :: after).Pairwise (fun a b => (interval a).Disjoint (interval b)) ↔
      (∀ a ∈ before ++ after, (interval a).Disjoint (interval area)) ∧
        (before ++ after).Pairwise fun a b => (interval a).Disjoint (interval b) := by
  rw [List.pairwise_middle (fun hab => hab.symm), List.pairwise_cons]
  refine and_congr_left fun _ => forall₂_congr fun a _ => ?_
  exact ⟨Interval.Disjoint.symm, Interval.Disjoint.symm⟩

theorem SpaceAreas.replace (h : SpaceAreas space) (hsplit : space.vmas = before ++ area :: after)
    (hok : AreaOk area') (hfree : ∀ a ∈ before ++ after, (interval a).Disjoint (interval area'))
    (hheap : area'.name = .heap → defaultUserHeapStart ≤ area'.start ∧
      area'.start + area'.size ≤ alignUpPage space.heapEnd) :
    SpaceAreas { space with vmas := before ++ area' :: after } := by
  have hrest : ∀ a ∈ before ++ after, a ∈ space.vmas := by
    intro a ha
    rw [hsplit]
    simp only [List.mem_append, List.mem_cons] at ha ⊢
    tauto
  have hmem : ∀ a ∈ before ++ area' :: after, a = area' ∨ a ∈ before ++ after := by
    intro a ha
    simp only [List.mem_append, List.mem_cons] at ha ⊢
    tauto
  have hdisj := h.disjoint
  rw [hsplit, pairwise_disjoint_middle] at hdisj
  refine ⟨?_, pairwise_disjoint_middle.mpr ⟨hfree, hdisj.2⟩, h.heapStart, h.heapEnd, ?_, h.bump⟩
  · intro a ha
    rcases hmem a ha with rfl | ha
    · exact hok
    · exact h.ok a (hrest a ha)
  · intro a ha hname
    rcases hmem a ha with rfl | ha
    · exact hheap hname
    · exact h.heap a (hrest a ha) hname

theorem SpaceAreas.set_pages (h : SpaceAreas space) (hget : space.vmas[idx]? = some area)
    (hstart : area'.start = area.start) (hsize : area'.size = area.size)
    (hname : area'.name = area.name) :
    SpaceAreas { space with vmas := space.vmas.set idx area' } := by
  obtain ⟨before, after, hsplit, -, hset⟩ := split_at hget
  have hmem : area ∈ space.vmas := by simp [hsplit]
  obtain ⟨haligned, hpos, hpages, hplaced⟩ := h.ok area hmem
  have hdisj := h.disjoint
  rw [hsplit, pairwise_disjoint_middle] at hdisj
  have hinterval : interval area' = interval area := by simp [interval, hstart, hsize]
  rw [hset]
  refine h.replace hsplit ⟨by rwa [hstart], by rwa [hsize], by rwa [hsize], by rwa [hstart, hsize]⟩
    (by rw [hinterval]; exact hdisj.1) ?_
  rw [hname, hstart, hsize]
  exact h.heap area hmem

theorem handleDemandFault_areas (h : SpaceAreas s.space) (faultAddr : Nat) (isWrite : Bool) :
    SpaceAreas (s.handleDemandFault faultAddr isWrite).2.space := by
  obtain ⟨frames, vmas, hspace, rfl | ⟨idx, area, page, phys, hget, rfl⟩⟩ :=
    handleDemandFault_space s faultAddr isWrite
  · rw [hspace]
    exact h.frames frames
  · have hareas : SpaceAreas { s.space with
        vmas := s.space.vmas.set idx (area.insertPage page phys) } :=
      h.set_pages hget rfl rfl rfl
    rw [hspace]
    exact hareas.frames frames

section Brk

theorem SpaceAreas.raise_heapEnd (h : SpaceAreas space) (hge : space.heapEnd ≤ newBrk)
    (hle : newBrk ≤ mmapBaseStart) : SpaceAreas { space with heapEnd := newBrk } := by
  refine ⟨h.ok, h.disjoint, h.heapStart, ⟨Nat.le_trans h.heapEnd.1 hge, hle⟩, ?_, h.bump⟩
  intro a ha hname
  obtain ⟨ha₁, ha₂⟩ := h.heap a ha hname
  have hmono : alignUpPage space.heapEnd ≤ alignUpPage newBrk := by
    grind
  exact ⟨ha₁, Nat.le_trans ha₂ hmono⟩

theorem expandHeap_areas (h : SpaceAreas space) (hgt : space.heapEnd < newBrk)
    (hle : newBrk ≤ mmapBaseStart) : SpaceAreas (space.expandHeap newBrk) := by
  have hstart : mmapBaseStart = 0x60000000 := rfl
  have hheapStart : defaultUserHeapStart = 0x50000000 := rfl
  obtain ⟨hlo, hhi⟩ := h.heapEnd
  obtain ⟨haligned, hge, hlt⟩ := alignUpPage_eq (a := newBrk) (by omega)
  simp only [pageSize] at hlt
  have hraised := h.raise_heapEnd (Nat.le_of_lt hgt) hle
  have heffect := expandHeap_effect space newBrk
  generalize space.expandHeap newBrk = space' at heffect
  cases heffect with
  | refused => exact h
  | @extended before after area hsplit hname hfree =>
    have hmem : area ∈ space.vmas := by simp [hsplit]
    have hpositive := (h.ok area hmem).pos
    obtain ⟨hh₁, hh₂⟩ := hraised.heap area hmem hname
    simp only at hh₂
    have hsize : sub64 (alignUpPage newBrk) area.start = alignUpPage newBrk - area.start :=
      sub64_eq (by omega) (by omega)
    rw [hsize] at hfree ⊢
    refine hraised.replace hsplit ((h.ok area hmem).resize haligned (by omega) (by omega)) ?_ ?_
    · intro a ha
      have hold : a ∈ space.vmas := by
        rw [hsplit]
        simp only [List.mem_append, List.mem_cons] at ha ⊢
        tauto
      have hlow : area.start + (alignUpPage newBrk - area.start) ≤ 2 ^ 48 := by omega
      exact (overlaps_eq_false_iff (h.ok a hold) hlow).mp (hfree a ha)
    · intro _
      exact ⟨hh₁, by simp only; omega⟩
  | created hfree =>
    have hheap := h.heapStart
    have hsize : sub64 (alignUpPage newBrk) space.heapStart =
        alignUpPage newBrk - space.heapStart := sub64_eq (by omega) (by omega)
    rw [hsize] at hfree ⊢
    have hlow : space.heapStart + (alignUpPage newBrk - space.heapStart) ≤ 2 ^ 48 := by omega
    refine hraised.append (areaOk_new (by rw [hheap]; rfl) (by omega)
      (by grind) hlow) ?_ ?_
    · exact fun a ha => (overlaps_eq_false_iff (h.ok a ha) hlow).mp (hfree a ha)
    · intro _
      simp only [VmArea.new]
      omega

/-- The check that a growing `brk` makes and a shrinking one leaves out: the first
heap area that starts below the new break, taken up to it, meets no other area. -/
def shrinkSafe (space : AddressSpace) (newBrk : Nat) : Bool :=
  match space.vmas.findIdx? (fun v => v.name == .heap && v.start < alignUpPage newBrk) with
  | none => true
  | some pos =>
    match space.vmas[pos]? with
    | none => true
    | some area => !(space.vmas.eraseIdx pos).any
        (·.overlaps area.start (alignUpPage newBrk - area.start))

theorem resizeHeap_of_not_heap (h : ∀ a ∈ vmas, a.name ≠ .heap) : resizeHeap stop vmas = vmas := by
  induction vmas with
  | nil => rfl
  | cons a rest ih =>
    rw [resizeHeap, if_neg (h a (by simp)), ih fun b hb => h b (by simp [hb])]

theorem resizeHeap_first (h : ∀ a ∈ before, a.name ≠ .heap) (hname : area.name = .heap) :
    resizeHeap stop (before ++ area :: after) =
      before ++ { area with size := sub64 stop area.start } :: after := by
  induction before with
  | nil => simp [resizeHeap, hname]
  | cons a rest ih =>
    rw [List.cons_append, resizeHeap, if_neg (h a (by simp)),
      ih fun b hb => h b (by simp [hb]), List.cons_append]

section Shrink

variable {space : AddressSpace} {stop old : Nat} {pieces : VmArea → List VmArea}

theorem pieces_end_le (hpieces : Pieces area stop old (pieces area))
    (hold : area.start + area.size ≤ old) (hp : p ∈ pieces area) : p.start + p.size ≤ stop := by
  have hpos := (hpieces.ok p hp).pos
  have hhas : (interval p).Has (p.start + p.size - 1) := by
    grind
  have hcovers := (hpieces.covers _).mp ⟨_, List.mem_map_of_mem hp, hhas⟩
  grind

theorem pieces_name_ne_heap (hpieces : Pieces area stop old (pieces area))
    (hold : area.name = .heap → area.start + area.size ≤ old)
    (h : ¬ (area.name = .heap ∧ area.start < stop)) (hp : p ∈ pieces area) : p.name ≠ .heap := by
  intro hname
  have hheap : area.name = .heap := (hpieces.name p hp).symm.trans hname
  refine h ⟨hheap, ?_⟩
  have hpos := (hpieces.ok p hp).pos
  have hinside := hpieces.inside p hp
  have hend := pieces_end_le hpieces (hold hheap) hp
  omega

theorem pieces_disjoint_iff (hpieces : Pieces area stop old (pieces area)) {range : Interval}
    (harea : 0 < area.size) (hpos : 0 < range.size) (hrange : range.stop ≤ stop) :
    (∀ p ∈ pieces area, (interval p).Disjoint range) ↔ (interval area).Disjoint range := by
  constructor
  · intro h
    refine Interval.disjoint_of_not_has harea hpos fun x hx hrx => ?_
    have hcut : ¬ Interval.Has ⟨stop, old - stop⟩ x := by
      grind
    obtain ⟨i, hi, hix⟩ := (hpieces.covers x).mpr ⟨hx, hcut⟩
    obtain ⟨p, hp, rfl⟩ := List.mem_map.mp hi
    exact (h p hp).not_has hix hrx
  · intro h p hp
    have hinside := hpieces.inside p hp
    grind

theorem shrink_split (h : SpaceAreas space)
    (hpieces : ∀ a ∈ space.vmas, Pieces a stop old (pieces a))
    (hold : ∀ a ∈ space.vmas, a.name = .heap → a.start + a.size ≤ old)
    (hkept : ∀ a ∈ space.vmas, a.name = .heap → a.start < stop →
      ∃ p, pieces a = [p] ∧ p.start = a.start) {pos : Nat}
    (hpos : space.vmas.findIdx? (fun v => v.name == .heap && v.start < stop) = some pos)
    (hget : space.vmas[pos]? = some area) :
    ∃ before p after, space.vmas.flatMap pieces = before ++ p :: after ∧
      p.start = area.start ∧ area.start < stop ∧ p.name = .heap ∧
      (∀ a ∈ before, a.name ≠ .heap) ∧
      ((∀ q ∈ before ++ after, (interval q).Disjoint ⟨area.start, stop - area.start⟩) ↔
        ∀ w ∈ space.vmas.eraseIdx pos, (interval w).Disjoint ⟨area.start, stop - area.start⟩) := by
  obtain ⟨hp, before, after, hsplit, hfirst, herase, -⟩ := split_at_first hpos hget
  simp only [Bool.and_eq_true, beq_iff_eq, decide_eq_true_eq] at hp
  have hsub : ∀ a ∈ before ++ after, a ∈ space.vmas := by
    intro a ha
    rw [hsplit]
    simp only [List.mem_append, List.mem_cons] at ha ⊢
    tauto
  have hmem : area ∈ space.vmas := by simp [hsplit]
  obtain ⟨p, hpiece, hstart⟩ := hkept area hmem hp.1 hp.2
  have hpieceMem : p ∈ pieces area := by simp [hpiece]
  refine ⟨before.flatMap pieces, p, after.flatMap pieces, ?_, hstart, hp.2,
    ((hpieces area hmem).name p hpieceMem).trans hp.1, ?_, ?_⟩
  · rw [hsplit, List.flatMap_append, List.flatMap_cons, hpiece]
    rfl
  · intro q hq
    obtain ⟨a, ha, hqa⟩ := List.mem_flatMap.mp hq
    have hmem := hsub a (List.mem_append_left _ ha)
    refine pieces_name_ne_heap (hpieces a hmem) (hold a hmem) ?_ hqa
    simpa using hfirst a ha
  · rw [← List.flatMap_append, herase]
    simp only [List.forall_mem_flatMap]
    refine forall₂_congr fun a ha => ?_
    have hsum : area.start + (stop - area.start) ≤ stop := by omega
    exact pieces_disjoint_iff (hpieces a (hsub a ha)) (h.ok a (hsub a ha)).pos
      (Nat.sub_pos_of_lt hp.2) hsum

theorem SpaceAreas.lower_heapEnd (h : SpaceAreas space)
    (hnew : defaultUserHeapStart ≤ newBrk ∧ newBrk ≤ mmapBaseStart)
    (hheap : ∀ a ∈ space.vmas, a.name = .heap → a.start + a.size ≤ alignUpPage newBrk) :
    SpaceAreas { space with heapEnd := newBrk } :=
  ⟨h.ok, h.disjoint, h.heapStart, hnew, fun a ha hname => ⟨(h.heap a ha hname).1, hheap a ha hname⟩,
    h.bump⟩

/-- Ending the first heap area at the new break keeps the invariant exactly if the
omitted check would pass. -/
theorem resizeHeap_areas (pieces : VmArea → List VmArea) (h : SpaceAreas space)
    (hnew : defaultUserHeapStart ≤ newBrk ∧ newBrk ≤ mmapBaseStart)
    (hstop : alignUpPage newBrk = stop) (hpieces : ∀ a ∈ space.vmas, Pieces a stop old (pieces a))
    (hold : ∀ a ∈ space.vmas, a.name = .heap → a.start + a.size ≤ old)
    (hkept : ∀ a ∈ space.vmas, a.name = .heap → a.start < stop →
      ∃ p, pieces a = [p] ∧ p.start = a.start) :
    (shrinkSafe space newBrk = true → SpaceAreas { space with
      vmas := resizeHeap stop (space.vmas.flatMap pieces)
      heapEnd := newBrk }) ∧
    (AreasOk (resizeHeap stop (space.vmas.flatMap pieces)) → shrinkSafe space newBrk = true) := by
  have hcut : SpaceAreas { space with vmas := space.vmas.flatMap pieces, heapEnd := newBrk } := by
    refine (h.flatMap stop old hpieces).lower_heapEnd hnew ?_
    intro q hq hname
    obtain ⟨a, ha, hqa⟩ := List.mem_flatMap.mp hq
    rw [hstop]
    exact pieces_end_le (hpieces a ha)
      (hold a ha (((hpieces a ha).name q hqa).symm.trans hname)) hqa
  simp only [shrinkSafe, hstop]
  split
  · rename_i hnone
    rw [List.findIdx?_eq_none_iff] at hnone
    rw [resizeHeap_of_not_heap]
    · exact ⟨fun _ => hcut, fun _ => rfl⟩
    · intro q hq
      obtain ⟨a, ha, hqa⟩ := List.mem_flatMap.mp hq
      refine pieces_name_ne_heap (hpieces a ha) (hold a ha) ?_ hqa
      simpa using hnone a ha
  · rename_i pos hpos
    split
    · rename_i hget
      have hlen := (List.findIdx?_eq_some_iff_getElem.mp hpos).1
      exact absurd (List.getElem?_eq_none_iff.mp hget) (Nat.not_le_of_lt hlen)
    rename_i area hget
    obtain ⟨before, p, after, hsplit, hstart, hlt, hname, hfirst, hiff⟩ :=
      shrink_split h hpieces hold hkept hpos hget
    have hmmap : mmapBaseStart = 0x60000000 := rfl
    obtain ⟨haligned, hge, hlow⟩ := alignUpPage_eq (a := newBrk) (by omega)
    rw [hstop] at haligned hge hlow
    simp only [pageSize] at hlow
    have hok : ∀ w ∈ space.vmas.eraseIdx pos, AreaOk w :=
      fun w hw => h.ok w (List.mem_of_mem_eraseIdx hw)
    have hmem : p ∈ space.vmas.flatMap pieces := by simp [hsplit]
    rw [hsplit, resizeHeap_first hfirst hname, sub64_eq (by omega) (by omega), Bool.not_eq_true',
      any_overlaps_eq_false hok (by omega), ← hiff, ← hstart]
    constructor
    · intro hfree
      refine hcut.replace hsplit ((hcut.ok p hmem).resize haligned (by omega) (by omega)) hfree ?_
      intro _
      have hbelow := (hcut.heap p hmem hname).1
      grind
    · intro hafter
      exact (pairwise_disjoint_middle.mp hafter.disjoint).1

end Shrink

theorem cut_of_end_inside (h : area.start + area.size ≤ 2 ^ 48) {lo hi : Nat}
    (hlt : area.start < lo) (hend : area.start + area.size ≤ hi) :
    ∃ p, VmArea.cut lo hi (hi - lo) area = [p] ∧ p.start = area.start := by
  have hendAddr := endAddr_eq_of_low h
  cases hover : area.overlaps lo (hi - lo) with
  | false => exact ⟨area, cut_of_disjoint hover, rfl⟩
  | true =>
    obtain ⟨front, back, heq, -⟩ := cut_eq hi hover
    rw [if_pos hlt, if_neg (by omega), List.append_nil] at heq
    exact ⟨_, heq, (part_fields _ _ _).1⟩

theorem shrinkHeap_areas (h : SpaceAreas s.space) (hge : defaultUserHeapStart ≤ newBrk)
    (hlt : newBrk < s.space.heapEnd) :
    (shrinkSafe s.space newBrk = true → SpaceAreas (s.shrinkHeap newBrk).space) ∧
      (AreasOk (s.shrinkHeap newBrk).space.vmas → shrinkSafe s.space newBrk = true) := by
  have hmmap : mmapBaseStart = 0x60000000 := rfl
  obtain ⟨hlo, hhi⟩ := h.heapEnd
  have hnew : defaultUserHeapStart ≤ newBrk ∧ newBrk ≤ mmapBaseStart := ⟨hge, by omega⟩
  obtain ⟨haligned, hle, hbound⟩ := alignUpPage_eq (a := newBrk) (by omega)
  obtain ⟨holdAligned, holdLe, holdBound⟩ := alignUpPage_eq (a := s.space.heapEnd) (by omega)
  simp only [pageSize] at haligned hbound holdAligned holdBound
  have hold : ∀ a ∈ s.space.vmas, a.name = .heap →
      a.start + a.size ≤ alignUpPage s.space.heapEnd := fun a ha hname => (h.heap a ha hname).2
  obtain ⟨frames, hspace⟩ := shrinkHeap_space s newBrk
  rw [hspace]
  by_cases hcut : alignUpPage newBrk < alignUpPage s.space.heapEnd
  · rw [unmapAreas_pages s.space.vmas (by grind)
      (by grind) hcut (by omega), cutAll]
    have hresize := resizeHeap_areas _ h hnew rfl
      (fun a ha => cut_pieces (h.ok a ha) (Nat.le_of_lt hcut) (by omega)
        (by grind) (by grind)) hold
      (fun a ha hname hbelow => cut_of_end_inside
        (by have := hold a ha hname; omega) hbelow (hold a ha hname))
    exact ⟨fun hsafe => (hresize.1 hsafe).frames frames, hresize.2⟩
  · have heq : alignUpPage newBrk = alignUpPage s.space.heapEnd := by omega
    have hresize := resizeHeap_areas (fun a => [a]) h hnew heq
      (fun a ha => pieces_of_one (h.ok a ha) rfl ⟨le_rfl, le_rfl⟩ fun x => by
        simp only [Interval.Has, Interval.stop]; omega) hold
      (fun a _ _ _ => ⟨a, rfl, rfl⟩)
    rw [List.flatMap_singleton', ← heq] at hresize
    rw [unmapAreas, if_pos (.inl (by omega))]
    exact ⟨fun hsafe => (hresize.1 hsafe).frames frames, hresize.2⟩

/-- What `brk` leaves unchecked, on the calls that shrink the heap. -/
def brkSafe (space : AddressSpace) (newBrk : Nat) : Bool :=
  if space.heapStart ≤ newBrk ∧ newBrk < space.heapEnd then shrinkSafe space newBrk else true

theorem brk_areas (h : SpaceAreas s.space) (newBrk : Nat) :
    (brkSafe s.space newBrk = true → SpaceAreas (s.brk newBrk).2.space) ∧
      (AreasOk (s.brk newBrk).2.space.vmas → brkSafe s.space newBrk = true) := by
  have hstart := h.heapStart
  have hhigh := h.heapEnd.2
  have hpos : 0 < defaultUserHeapStart := by decide
  rw [brkSafe]
  rcases brk_cases s newBrk with ⟨heq, hrange⟩ | ⟨⟨hlow, hwindow, -⟩, ⟨hgt, heq⟩ | ⟨hlt, heq⟩⟩
  · rw [heq, if_neg (by omega)]
    exact ⟨fun _ => h, fun _ => rfl⟩
  · rw [heq, if_neg (by omega)]
    exact ⟨fun _ => expandHeap_areas h hgt hwindow, fun _ => rfl⟩
  · rw [heq, if_pos ⟨hlow, hlt⟩]
    exact shrinkHeap_areas h (hstart ▸ hlow) hlt

end Brk

section Stack

theorem nextTable_freeCount_le (s : PageState) (table : Nat) (index : Fin 512) :
    (s.nextTable table index).2.pmm.freeCount ≤ s.pmm.freeCount := by
  simp only [PageState.nextTable, allocPageTable]
  split
  · exact le_rfl
  cases halloc : s.pmm.allocFrame with
  | none => exact le_rfl
  | some r =>
    have hcount := (allocFrame_spec halloc).count
    grind

theorem leafTable_freeCount_le (virt level table : Nat) (s : PageState) :
    (PageState.leafTable virt level table s).2.pmm.freeCount ≤ s.pmm.freeCount := by
  induction level generalizing table s with
  | zero => exact le_rfl
  | succ level ih =>
    have hnext := nextTable_freeCount_le s table (tableIndex (level + 1) virt)
    rw [PageState.leafTable]
    split
    · rename_i s' heq
      rw [heq] at hnext
      exact hnext
    · rename_i next s' heq
      rw [heq] at hnext
      exact Nat.le_trans (ih next s') hnext

theorem mapUserPage_freeCount_le (s : PageState) (pml4 virt phys : Nat) (writable : Bool) :
    (s.mapUserPage pml4 virt phys writable).2.pmm.freeCount ≤ s.pmm.freeCount := by
  have hleaf := leafTable_freeCount_le virt 3 pml4 s
  simp only [PageState.mapUserPage]
  split
  all_goals
    rename_i heq
    rw [heq] at hleaf
    exact hleaf

theorem mapStack_freeCount {pml4 top pages i : Nat} {s s' : PageState}
    (h : PageState.mapStack pml4 top pages i s = (true, s')) :
    pages + s'.pmm.freeCount ≤ s.pmm.freeCount := by
  induction pages generalizing i s with
  | zero =>
    cases h
    omega
  | succ pages ih =>
    simp only [PageState.mapStack, PageState.allocateAndMapPage] at h
    cases halloc : s.pmm.allocFrame with
    | none => simp [halloc] at h
    | some r =>
      obtain ⟨phys, pmm⟩ := r
      have hcount := (allocFrame_spec halloc).count
      have hmap := mapUserPage_freeCount_le
        ⟨s.mem.writeByte phys 0 0, pmm, s.allocatedFrames ++ [phys]⟩ pml4
        (sub64 top (i * pageSize % 2 ^ 64)) phys true
      simp only [halloc] at h
      split at h
      · cases h
      rename_i heq
      split at heq
      · rename_i hmapped
        cases heq
        rw [hmapped] at hmap
        have hrest := ih h
        simp only at hmap
        omega
      · cases heq

theorem addVma_areas (h : SpaceAreas s.space) (hok : area.size ≠ 0 → AreaOk area)
    (hname : area.name ≠ .heap)
    (hfree : s.space.vmas.any (·.overlaps area.start area.size) = false →
      ∀ a ∈ s.space.vmas, (interval a).Disjoint (interval area)) :
    SpaceAreas (s.addVma area).2.space := by
  simp only [SpaceState.addVma]
  split
  · exact h
  rename_i hargs
  split
  · exact h
  rename_i hover
  exact h.append (hok (by omega)) (hfree (by simpa using hover)) fun hheap => absurd hheap hname

theorem addGuardPage_areas (h : SpaceAreas s.space) (hempty : s.space.vmas = []) {addr : Nat}
    (haligned : addr % pageSize = 0) (hlt : addr < 2 ^ 64) :
    SpaceAreas (s.addGuardPage addr pageSize).2.space := by
  refine addVma_areas h (fun _ => ⟨haligned, Nat.zero_lt_succ _, Nat.mod_self _, ?_⟩) nofun
    (by simp [hempty])
  simp only [pageSize] at haligned ⊢
  simp only [VmArea.new]
  omega

theorem foldl_insertPage_shape (pages : List Nat) (page : Nat → Nat) (area : VmArea) :
    let filled := pages.foldl (fun area i => area.insertPage (page i) 0) area
    filled = { area with populatedPages := filled.populatedPages } ∧
      ∀ entry ∈ filled.populatedPages,
        entry ∈ area.populatedPages ∨ ∃ i ∈ pages, entry.1 = page i := by
  induction pages generalizing area with
  | nil => exact ⟨rfl, fun entry hentry => .inl hentry⟩
  | cons i rest ih =>
    obtain ⟨hshape, hentries⟩ := ih (area.insertPage (page i) 0)
    refine ⟨hshape, fun entry hentry => ?_⟩
    rcases hentries entry hentry with hold | ⟨j, hj, heq⟩
    · rcases List.mem_cons.mp hold with rfl | hold
      · exact .inr ⟨i, .head _, rfl⟩
      · exact .inl (List.mem_filter.mp hold).1
    · exact .inr ⟨j, .tail _ hj, heq⟩

theorem new_areas {mem' : Mem} {pmm' : Pmm}
    (h : AddressSpace.new kernelCr3 mem pmm = (some space, mem', pmm')) :
    SpaceAreas space ∧ space.vmas = [] := by
  have hheap : defaultUserHeapStart ≤ mmapBaseStart := by decide
  have hbump : mmapBaseStart ≤ mmapBaseEnd := by decide
  obtain ⟨pml4, frames, rfl⟩ := new_space h
  exact ⟨⟨nofun, List.Pairwise.nil, rfl, ⟨le_rfl, hheap⟩, nofun, hbump⟩, rfl⟩

/-- A stack that is mapped has no more pages than there are frames, so its area
does not wrap. -/
theorem stackArea_areas (h : SpaceAreas s.space) (hpages : numPages ≤ pmmFrames)
    (hstart : area.start = sub64 defaultUserStackTop (numPages * pageSize % 2 ^ 64))
    (hsize : area.size = numPages * pageSize % 2 ^ 64) (hname : area.name = .stack) :
    SpaceAreas (s.addVma area).2.space := by
  have htop : defaultUserStackTop = 0x80000000 := rfl
  have hframes : pmmFrames = 130560 := by decide
  simp only [sub64, pageSize] at hstart hsize
  have hlow : area.start + area.size ≤ 2 ^ 48 := by omega
  refine addVma_areas h ?_ (by rw [hname]; nofun) (any_overlaps_eq_false h.ok hlow).mp
  intro hpos
  exact ⟨by grind, by omega, by grind, .inl hlow⟩

theorem allocateUserStack_areas (h : SpaceAreas s.space) (hempty : s.space.vmas = [])
    (numPages : Nat) : SpaceAreas (s.allocateUserStack defaultUserStackTop numPages).2.space := by
  have hguard : SpaceAreas (s.addGuardPage (sub64 (sub64 defaultUserStackTop
      (numPages * pageSize % 2 ^ 64)) pageSize) pageSize).2.space := by
    have htop : defaultUserStackTop = 0x80000000 := rfl
    refine addGuardPage_areas h hempty ?_ (by grind)
    grind
  simp only [SpaceState.allocateUserStack]
  generalize (s.addGuardPage (sub64 (sub64 defaultUserStackTop
      (numPages * pageSize % 2 ^ 64)) pageSize) pageSize).2 = g at hguard ⊢
  split
  · exact hguard.frames _
  rename_i pages hmapped
  have hcount := mapStack_freeCount hmapped
  have hframes := freeCount_le g.pages.pmm
  obtain ⟨hshape, -⟩ := foldl_insertPage_shape (List.range numPages)
    (fun i => sub64 defaultUserStackTop ((i + 1) * pageSize % 2 ^ 64))
    (VmArea.new (sub64 defaultUserStackTop (numPages * pageSize % 2 ^ 64))
      (numPages * pageSize % 2 ^ 64) (protRead ||| protWrite) (mapPrivate ||| mapAnonymous) false
      .stack)
  exact stackArea_areas (hguard.frames _) (by omega) (congrArg VmArea.start hshape)
    (congrArg VmArea.size hshape) (congrArg VmArea.name hshape)

end Stack

/-- The calls on a space, with addresses and lengths below `2 ^ 47`. -/
inductive SpaceCall where
  | mmap (addrHint : Option (Fin (2 ^ 47))) (length : Fin (2 ^ 47)) (prot flags : BitVec 32)
  | munmap (addr length : Fin (2 ^ 47))
  | brk (newBrk : Fin (2 ^ 64))
  | fault (addr : Fin (2 ^ 47)) (isWrite : Bool)

def SpaceState.call (s : SpaceState) : SpaceCall → SpaceState
  | .mmap addrHint length prot flags => (s.mmap (addrHint.map Fin.val) length prot flags).2
  | .munmap addr length => (s.munmap addr length).2
  | .brk newBrk => (s.brk newBrk).2
  | .fault addr isWrite => (s.handleDemandFault addr isWrite).2

def SpaceState.boot (kernelCr3 : Nat) (mem : Mem) (pmm : Pmm) (numPages : Nat) :
    Option SpaceState :=
  match AddressSpace.new kernelCr3 mem pmm with
  | (none, _, _) => none
  | (some space, mem, pmm) =>
    some (SpaceState.allocateUserStack ⟨mem, pmm, space⟩ defaultUserStackTop numPages).2

theorem boot_areas (h : SpaceState.boot kernelCr3 mem pmm numPages = some s) :
    SpaceAreas s.space := by
  simp only [SpaceState.boot] at h
  split at h
  · cases h
  · rename_i space mem' pmm' hnew
    cases h
    obtain ⟨hareas, hempty⟩ := new_areas hnew
    exact allocateUserStack_areas hareas hempty numPages

/-- A shrinking `brk` passes the overlap check that the code leaves out. -/
def CallSafe (s : SpaceState) : SpaceCall → Prop
  | .brk newBrk => brkSafe s.space newBrk = true
  | _ => True

theorem call_areas (h : SpaceAreas s.space) (call : SpaceCall) :
    (CallSafe s call → SpaceAreas (s.call call).space) ∧
      (AreasOk (s.call call).space.vmas → CallSafe s call) := by
  cases call with
  | mmap addrHint length prot flags =>
    refine ⟨fun _ => mmap_areas h ?_ length.isLt prot flags, fun _ => trivial⟩
    intro a ha
    obtain ⟨hint, -, rfl⟩ := Option.map_eq_some_iff.mp ha
    exact hint.isLt
  | munmap addr length =>
    exact ⟨fun _ => munmap_areas h addr.isLt length.isLt, fun _ => trivial⟩
  | brk newBrk => exact brk_areas h newBrk
  | fault addr isWrite => exact ⟨fun _ => handleDemandFault_areas h addr isWrite, fun _ => trivial⟩

/-- The areas are in order after every call of a run exactly if every shrinking
`brk` of the run passes the check that the code leaves out. -/
theorem areasOk_iff_guarded {kernelCr3 : Nat} {mem : Mem} {pmm : Pmm} {numPages : Nat}
    {s : SpaceState} (hboot : SpaceState.boot kernelCr3 mem pmm numPages = some s)
    (calls : List SpaceCall) :
    Guarded SpaceState.call CallSafe s calls ↔
      ∀ k, AreasOk ((calls.take k).foldl SpaceState.call s).space.vmas := by
  have hstep : ∀ (s : SpaceState) (call : SpaceCall), SpaceAreas s.space → CallSafe s call →
      SpaceAreas (s.call call).space := fun s call h => (call_areas h call).1
  have hexact : ∀ (s : SpaceState) (call : SpaceCall), SpaceAreas s.space →
      AreasOk (s.call call).space.vmas → CallSafe s call := fun s call h => (call_areas h call).2
  exact guarded_iff_forall_take hstep (fun s => SpaceAreas.areasOk) hexact (boot_areas hboot)

def kernelOnly : Mem := fun table index =>
  if table = 0x1000 ∧ index = 0 then makeEntry 0x2000 (present ||| PageTables.writable) else 0

/-- Moving the break below the hole is safe. -/
theorem areasOk_below_hole :
    ∃ s, SpaceState.boot 0x1000 kernelOnly ⟨fun _ => 0⟩ 4 = some s ∧
      ∀ k, AreasOk (([.brk 0x50003000, .munmap 0x50001000 0x1000, .brk 0x50000800].take
        k).foldl SpaceState.call s).space.vmas := by
  have hrun : (SpaceState.boot 0x1000 kernelOnly ⟨fun _ => 0⟩ 4).map (fun s =>
      (brkSafe s.space 0x50003000,
        brkSafe ((s.call (.brk 0x50003000)).call (.munmap 0x50001000 0x1000)).space
          0x50000800)) = some (true, true) := by
    decide +kernel
  obtain ⟨s, hboot, hsafe⟩ := Option.map_eq_some_iff.mp hrun
  rw [Prod.mk.injEq] at hsafe
  exact ⟨s, hboot, (areasOk_iff_guarded hboot _).mp ⟨hsafe.1, trivial, hsafe.2, trivial⟩⟩

/-- A hole in the middle of the heap is lost again when the break moves down to a
page behind it: the first part of the heap then covers the second one. -/
theorem shrinking_brk_overlaps :
    ∃ s, SpaceState.boot 0x1000 kernelOnly ⟨fun _ => 0⟩ 4 = some s ∧
      ¬ AreasOk ([.brk 0x50003000, .munmap 0x50001000 0x1000, .brk 0x50002800].foldl
        SpaceState.call s).space.vmas := by
  have hrun : (SpaceState.boot 0x1000 kernelOnly ⟨fun _ => 0⟩ 4).map (fun s =>
      ([.brk 0x50003000, .munmap 0x50001000 0x1000, .brk 0x50002800].foldl
        SpaceState.call s).space.vmas.map interval) =
      some [⟨0x7fffb000, 0x1000⟩, ⟨0x7fffc000, 0x4000⟩, ⟨0x50000000, 0x3000⟩,
        ⟨0x50002000, 0x1000⟩] := by
    decide +kernel
  obtain ⟨s, hboot, hintervals⟩ := Option.map_eq_some_iff.mp hrun
  refine ⟨s, hboot, fun h => ?_⟩
  have hdisjoint := List.pairwise_map.mpr h.disjoint
  rw [hintervals] at hdisjoint
  revert hdisjoint
  simp [Interval.Disjoint, Interval.stop]

end AuraOS.UserSpace
