import AuraOS.AreaPlacement
import AuraOS.GuardedRuns
import AuraOS.SpaceWorld

namespace AuraOS.UserSpace

open GuardedRuns PageTables PhysicalFrames VirtualAreas

variable {area : VmArea} {candidate rounds len length : Nat} {vmas : List VmArea}
  {space : AddressSpace} {flags : BitVec 32} {s : SpaceState}

section Search

variable (vmas : List VmArea) (len : Nat)

def PageAreas : Prop :=
  ∀ area ∈ vmas, area.start % pageSize = 0 ∧ area.size % pageSize = 0

structure Unobstructed (start addr : Nat) : Prop where
  aligned : addr % pageSize = 0
  start_le : start ≤ addr
  window : addr + len ≤ mmapBaseEnd
  clear : ∀ area ∈ vmas, area.overlaps addr len = false

/-- The search leaves the window over an area that ends so high that the range behind it
wraps around. -/
def WrapsBehind (start : Nat) : Prop :=
  ∃ candidate existing, SearchReaches vmas len start candidate ∧
    candidate + len ≤ mmapBaseEnd ∧ vmas.find? (·.overlaps candidate len) = some existing ∧
    2 ^ 64 ≤ existing.endAddr + len

variable {vmas len}

theorem PageAreas.endAddr (h : PageAreas vmas) (harea : area ∈ vmas) :
    alignUpPage area.endAddr = area.endAddr := by
  obtain ⟨hstart, hsize⟩ := h area harea
  grind

theorem PageAreas.roundedEnd_lt (h : PageAreas vmas) : ∀ area ∈ vmas, roundedEnd area < 2 ^ 64 := by
  intro area harea
  obtain ⟨hstart, hsize⟩ := h area harea
  grind

theorem searchRange_wrapped (hareas : PageAreas vmas) (hlen : len ≤ mmapBaseEnd)
    (hwrap : 2 ^ 64 ≤ candidate + len) (hcandidate : candidate < 2 ^ 64)
    (hrounds : areasBehind vmas candidate < rounds) :
    (searchRange vmas len rounds candidate).isSome := by
  have hends : SearchEnds vmas len candidate (searchRange vmas len rounds candidate) :=
    searchEnds_of_rounded hareas.roundedEnd_lt hrounds
  exact Option.isSome_iff_ne_none.mpr
    (hends.ne_none hareas.roundedEnd_lt hlen hcandidate hwrap)

theorem unobstructed_jump (hmem : area ∈ vmas) (hword : candidate + len < 2 ^ 64)
    (hover : area.overlaps candidate len = true) {addr : Nat} :
    Unobstructed vmas len candidate addr ↔ Unobstructed vmas len area.endAddr addr := by
  obtain ⟨hstart, hend⟩ := (overlaps_iff hword).mp hover
  constructor
  · intro h
    refine ⟨h.aligned, ?_, h.window, h.clear⟩
    have hle := h.start_le
    have hwindow := h.window
    have hclear := h.clear area hmem
    have hsum : add64 addr len = addr + len := Nat.mod_eq_of_lt (by
      grind)
    simp only [VmArea.overlaps, hsum, Bool.not_eq_false', Bool.or_eq_true, decide_eq_true_eq]
      at hclear
    omega
  · intro h
    have hle := h.start_le
    exact ⟨h.aligned, by omega, h.window, h.clear⟩

theorem wrapsBehind_jump {existing : VmArea} (hareas : PageAreas vmas)
    (hfits : candidate + len ≤ mmapBaseEnd)
    (hfind : vmas.find? (·.overlaps candidate len) = some existing) :
    WrapsBehind vmas len candidate ↔
      2 ^ 64 ≤ existing.endAddr + len ∨ WrapsBehind vmas len existing.endAddr := by
  have hsum : ∀ c, c + len ≤ mmapBaseEnd → add64 c len = c + len := by
    intro c hc
    apply Nat.mod_eq_of_lt
    grind
  have hnext : SearchReaches vmas len candidate existing.endAddr := by
    have hstart : SearchReaches vmas len candidate candidate := .start
    have hjump := hstart.jump ((hsum candidate hfits).symm ▸ hfits) hfind
    rwa [hareas.endAddr (List.mem_of_find?_eq_some hfind)] at hjump
  constructor
  · rintro ⟨c, area, hreached, hfits', hfind', hwrap⟩
    -- the first jump of the way to the candidate is the one over the existing area
    have hcases : c = candidate ∨ SearchReaches vmas len existing.endAddr c := by
      clear hfits' hfind'
      induction hreached with
      | start => exact .inl rfl
      | jump _ hfits'' hfind'' ih =>
        rcases ih with rfl | hrest
        · rw [hfind] at hfind''
          cases hfind''
          rw [hareas.endAddr (List.mem_of_find?_eq_some hfind)]
          exact .inr .start
        · exact .inr (hrest.jump hfits'' hfind'')
    rcases hcases with rfl | hrest
    · rw [hfind] at hfind'
      cases hfind'
      exact .inl hwrap
    · exact .inr ⟨c, area, hrest, hfits', hfind', hwrap⟩
  · rintro (hwrap | ⟨c, area, hreached, hrest⟩)
    · exact ⟨candidate, existing, .start, hfits, hfind, hwrap⟩
    · refine ⟨c, area, ?_, hrest⟩
      clear hrest
      induction hreached with
      | start => exact hnext
      | jump _ hfits' hfind' ih => exact ih.jump hfits' hfind'

/-- The search finds an address if a range from its start on is free, or if it leaves the
window so high that the sum wraps around. -/
theorem searchRange_isSome_iff (hareas : PageAreas vmas) (hlen : len ≤ mmapBaseEnd)
    (haligned : candidate % pageSize = 0) (hword : candidate + len < 2 ^ 64)
    (hrounds : areasBehind vmas candidate < rounds) :
    (searchRange vmas len rounds candidate).isSome ↔
      (∃ addr, Unobstructed vmas len candidate addr) ∨ WrapsBehind vmas len candidate := by
  induction rounds generalizing candidate with
  | zero => omega
  | succ rounds ih =>
    have hsum : add64 candidate len = candidate + len := Nat.mod_eq_of_lt hword
    rw [searchRange, hsum]
    split
    · rename_i hfits
      cases hfind : vmas.find? (·.overlaps candidate len) with
      | none =>
        have hclear : ∀ area ∈ vmas, area.overlaps candidate len = false := fun area harea =>
          Bool.not_eq_true _ ▸ List.find?_eq_none.mp hfind area harea
        exact iff_of_true rfl (.inl ⟨candidate, haligned, le_rfl, hfits, hclear⟩)
      | some existing =>
        obtain ⟨hmem, hover⟩ := overlaps_of_find? hfind
        have hbehind := areasBehind_lt hmem (lt_endAddr_of_overlaps hover) le_rfl
        have hstop : existing.endAddr < 2 ^ 64 := Nat.mod_lt _ (by decide)
        simp only [hareas.endAddr hmem]
        rw [wrapsBehind_jump hareas hfits hfind,
          exists_congr fun _ => unobstructed_jump hmem hword hover]
        by_cases hwrap : 2 ^ 64 ≤ existing.endAddr + len
        · exact iff_of_true (searchRange_wrapped hareas hlen hwrap hstop (by omega))
            (.inr (.inl hwrap))
        · have hpage : existing.endAddr % pageSize = 0 := by
            rw [← hareas.endAddr hmem]
            exact Nat.mul_mod_left _ _
          rw [ih hpage (by omega) (by omega), or_iff_right hwrap]
    · rename_i hfull
      refine iff_of_false (by rintro ⟨⟩) ?_
      rintro (⟨addr, h⟩ | ⟨c, area, hreached, hfits, -⟩)
      · have hle := h.start_le
        have hwindow := h.window
        omega
      · -- the candidate itself does not fit, so the search goes nowhere from it
        have hsame : c = candidate := by
          clear hfits
          induction hreached with
          | start => rfl
          | jump _ hfits _ ih =>
            rw [ih, hsum] at hfits
            omega
        omega

end Search

structure PageSpace (space : AddressSpace) : Prop where
  areas : PageAreas space.vmas
  bump : space.mmapBumpPtr ≤ mmapBaseEnd

theorem cut_pageAreas (hstart : area.start % pageSize = 0) (hsize : area.size % pageSize = 0)
    {lo hi : Nat} (hlo : lo % pageSize = 0) (hhi : hi % pageSize = 0) :
    PageAreas (VmArea.cut lo hi len area) := by
  have hend : area.endAddr % pageSize = 0 := by
    grind
  have hsub : ∀ a b, a % pageSize = 0 → b % pageSize = 0 → sub64 a b % pageSize = 0 := by
    intro a b ha hb
    grind
  intro part hpart
  rcases mem_cut hpart with ⟨rfl, -⟩ | ⟨-, pages, ⟨-, rfl⟩ | ⟨-, rfl⟩⟩
  · exact ⟨hstart, hsize⟩
  · exact ⟨hstart, hsub _ _ hlo hstart⟩
  · exact ⟨hhi, hsub _ _ hend hhi⟩

theorem PageAreas.unmapAreas (h : PageAreas vmas) (addr length : Nat) :
    PageAreas (unmapAreas addr length vmas) := by
  rw [UserSpace.unmapAreas]
  split
  · exact h
  · rename_i hok
    rw [not_or, not_not] at hok
    intro part hpart
    obtain ⟨area, harea, hpart⟩ := List.mem_flatMap.mp hpart
    refine cut_pageAreas (h area harea).1 (h area harea).2 hok.2 ?_ part hpart
    grind

theorem PageSpace.chooseRange {space' : AddressSpace} (h : PageSpace space) {addrHint : Option Nat}
    {vaddr : Nat} (hchoose : space.chooseRange addrHint len flags = .ok (vaddr, space')) :
    vaddr % pageSize = 0 ∧ PageSpace space' := by
  by_cases hflags : flags &&& mapFixed = 0
  · obtain ⟨hsearch, rfl⟩ := chooseRange_search hflags hchoose
    obtain ⟨-, hfits, -⟩ := searchRange_induction (P := fun _ => True) (fun _ _ _ _ _ => trivial)
      trivial hsearch
    refine ⟨(chooseRange_free hchoose).1, h.areas, ?_⟩
    grind
  · obtain ⟨-, rfl, haligned, -⟩ := chooseRange_fixed hflags hchoose
    exact ⟨haligned, h⟩

theorem PageSpace.mmap (h : PageSpace s.space) (addrHint : Option Nat) (length : Nat)
    (prot flags : BitVec 32) : PageSpace (s.mmap addrHint length prot flags).2.space := by
  have heffect := mmap_effect s addrHint length prot flags
  generalize (s.mmap addrHint length prot flags).1 = result at heffect
  generalize (s.mmap addrHint length prot flags).2.space = space' at heffect ⊢
  cases heffect with
  | refused => exact h
  | rolledBack _ _ hchoose _ =>
    have hspace := (h.chooseRange hchoose).2
    exact ⟨hspace.areas.unmapAreas _ _, hspace.bump⟩
  | mapped _ hchoose harea =>
    obtain ⟨haligned, hspace⟩ := h.chooseRange hchoose
    refine ⟨fun area hmem => ?_, hspace.bump⟩
    rcases List.mem_append.mp hmem with hmem | hmem
    · exact hspace.areas area hmem
    · rw [List.mem_singleton.mp hmem, harea]
      exact ⟨haligned, Nat.mul_mod_left _ _⟩

theorem PageSpace.munmap (h : PageSpace s.space) (addr length : Nat) :
    PageSpace (s.munmap addr length).2.space := by
  obtain ⟨frames, hspace⟩ := munmap_space s addr length
  rw [hspace]
  exact ⟨h.areas.unmapAreas addr length, h.bump⟩

/-- The call is `mmap` or `munmap`. -/
def MapsOrUnmaps : SpaceOp → Prop
  | .mmap _ _ _ _ => True
  | .munmap _ _ => True
  | _ => False

theorem PageSpace.perform {op : SpaceOp} (h : PageSpace s.space) (hop : MapsOrUnmaps op) :
    PageSpace (s.perform op).space := by
  cases op with
  | mmap addrHint length prot flags => exact h.mmap addrHint length prot flags
  | munmap addr length => exact h.munmap addr length
  | brk => exact hop.elim
  | fault => exact hop.elim
  | mapPage => exact hop.elim
  | code => exact hop.elim
  | stack => exact hop.elim

theorem pageSpace_new {kernelCr3 : Nat} {mem mem' : Mem} {pmm pmm' : Pmm}
    (hnew : AddressSpace.new kernelCr3 mem pmm = (some space, mem', pmm')) : PageSpace space := by
  obtain ⟨pml4, frames, rfl⟩ := new_space hnew
  exact ⟨nofun, by simp [mmapBaseStart, mmapBaseEnd]⟩

def roundedLength (length : Nat) : Nat :=
  (length + (pageSize - 1)) / pageSize * pageSize

theorem roundedLength_cases (h : length < 2 ^ 64) :
    alignUpPage length = roundedLength length ∨ roundedLength length = 2 ^ 64 := by
  simp only [alignUpPage, roundedLength, add64, pageSize]
  omega

theorem mmap_outOfMemory_iff {prot : BitVec 32} (hlength : length ≠ 0)
    (hfixed : flags &&& mapFixed = 0) (hlazy : flags &&& mapPopulate = 0) :
    (s.mmap none length prot flags).1 = .error .outOfMemory ↔
      searchRange s.space.vmas (alignUpPage length) (s.space.vmas.length + 1)
        (s.space.firstCandidate none) = none := by
  rw [← chooseRange_error_iff hfixed]
  simp only [SpaceState.mmap, if_neg hlength, hlazy]
  cases s.space.chooseRange none (alignUpPage length) flags with
  | error e => simp
  | ok r => simp

/-- In every state that `mmap` and `munmap` calls lead to, a request is refused only if the
window has no gap for it, exactly if the window has no gap, or has one from the pointer
on, or the search leaves it over an area close to the top of the address space. -/
theorem out_of_memory_iff {kernelCr3 : Nat} {mem mem' : Mem} {pmm pmm' : Pmm} {space : AddressSpace}
    (hnew : AddressSpace.new kernelCr3 mem pmm = (some space, mem', pmm')) (ops : List SpaceOp)
    (hops : ∀ op ∈ ops, MapsOrUnmaps op) (length : Nat) (hlength : length < 2 ^ 64)
    (prot flags : BitVec 32) (hfixed : flags &&& mapFixed = 0) (hlazy : flags &&& mapPopulate = 0) :
    let s := ops.foldl SpaceState.perform ⟨mem', pmm', space⟩
    ((s.mmap none length prot flags).1 = .error .outOfMemory →
      ∀ a, ¬ FreeRange s.space.vmas (roundedLength length) mmapBaseStart a) ↔
    (length ≠ 0 → (∃ a, FreeRange s.space.vmas (roundedLength length) mmapBaseStart a) →
      (∃ a, Unobstructed s.space.vmas (roundedLength length) (s.space.firstCandidate none) a) ∨
      WrapsBehind s.space.vmas (roundedLength length) (s.space.firstCandidate none)) := by
  intro s
  have hstep : ∀ (s : SpaceState) (op : SpaceOp), PageSpace s.space → MapsOrUnmaps op ∧ True →
      PageSpace (s.perform op).space := fun s op h hop => h.perform hop.1
  have hinit : PageSpace (SpaceState.mk mem' pmm' space).space := pageSpace_new hnew
  have hspace : PageSpace s.space :=
    invariant_of_guarded hstep hinit (guarded_and_of_forall_mem hops (guarded_true _ _ _))
  by_cases hzero : length = 0
  · have hok : (s.mmap none length prot flags).1 = .error .invalidArguments := by
      rw [SpaceState.mmap, if_pos hzero]
    rw [hok]
    exact iff_of_true (by rintro ⟨⟩) fun hne => absurd hzero hne
  by_cases hgap : ∃ a, FreeRange s.space.vmas (roundedLength length) mmapBaseStart a
  · obtain ⟨a, ha⟩ := hgap
    have hwindow := ha.window
    have hlen : alignUpPage length = roundedLength length := by
      refine (roundedLength_cases hlength).resolve_right fun hbig => ?_
      rw [hbig, mmapBaseEnd] at hwindow
      omega
    have hstart : s.space.firstCandidate none ≤ mmapBaseEnd := by
      have hbump := hspace.bump
      simp only [AddressSpace.firstCandidate, Option.map_none, Option.filter_none,
        Option.getD_none, alignUpPage, add64, mmapBaseStart, mmapBaseEnd, pageSize] at *
      omega
    have hword : s.space.firstCandidate none + roundedLength length < 2 ^ 64 := by
      grind
    have hrounds : areasBehind s.space.vmas (s.space.firstCandidate none) <
        s.space.vmas.length + 1 := Nat.lt_succ_of_le List.countP_le_length
    have hsearch := searchRange_isSome_iff hspace.areas (Nat.le_of_add_left_le hwindow)
      (firstCandidate_aligned s.space none) hword hrounds
    rw [mmap_outOfMemory_iff hzero hfixed hlazy, hlen, ← Option.not_isSome_iff_eq_none, hsearch]
    constructor
    · intro h _ _
      by_contra hnone
      exact h hnone a ha
    · intro h hnone
      exact absurd (h hzero ⟨a, ha⟩) hnone
  · exact iff_of_true (fun _ a ha => hgap ⟨a, ha⟩) fun _ h => absurd h hgap

section Sample

/-- A page is mapped and unmapped again; the rest of the window is still there. -/
theorem gap_behind_freed_page :
    ∃ space mem' pmm', AddressSpace.new 0x1000 hardwareTables (fewFrames 8) =
        (some space, mem', pmm') ∧
      let s := [SpaceOp.mmap none 0x1000 protRead 0, .munmap 0x60000000 0x1000].foldl
        SpaceState.perform ⟨mem', pmm', space⟩
      (s.mmap none 0x1000 protRead 0).1 = .error .outOfMemory →
        ∀ a, ¬ FreeRange s.space.vmas (roundedLength 0x1000) mmapBaseStart a := by
  obtain ⟨space, mem', pmm', hnew, hvmas, hfirst⟩ := exists_new (n := 8)
    (P := fun s => ([SpaceOp.mmap none 0x1000 protRead 0, .munmap 0x60000000 0x1000].foldl
      SpaceState.perform s).space.vmas = [] ∧ ([SpaceOp.mmap none 0x1000 protRead 0,
        .munmap 0x60000000 0x1000].foldl SpaceState.perform s).space.firstCandidate none =
          0x60001000) (by decide +kernel)
  refine ⟨space, mem', pmm', hnew, (out_of_memory_iff hnew _ ?_ 0x1000 (by decide) protRead 0
    (by decide) (by decide)).mpr fun _ _ => .inl ⟨0x60001000, ?_⟩⟩
  · intro op hop
    rcases List.mem_pair.mp hop with rfl | rfl
    · trivial
    · trivial
  · rw [hvmas, hfirst]
    exact ⟨by decide, le_rfl, by decide, nofun⟩

/-- The last page of the window is mapped and unmapped again.  Then the space has no area at
all, and a request for one page is refused. -/
theorem freed_window_refused :
    ∃ space mem' pmm', AddressSpace.new 0x1000 hardwareTables (fewFrames 8) =
        (some space, mem', pmm') ∧
      let s := [SpaceOp.mmap (some 0x7EFFF000) 0x1000 protRead 0, .munmap 0x7EFFF000 0x1000].foldl
        SpaceState.perform ⟨mem', pmm', space⟩
      s.space.vmas = [] ∧ (s.mmap none 0x1000 protRead 0).1 = .error .outOfMemory ∧
        FreeRange s.space.vmas (roundedLength 0x1000) mmapBaseStart mmapBaseStart := by
  obtain ⟨space, mem', pmm', hnew, hvmas, hrefused⟩ := exists_new (n := 8)
    (P := fun s => ([SpaceOp.mmap (some 0x7EFFF000) 0x1000 protRead 0, .munmap 0x7EFFF000
      0x1000].foldl SpaceState.perform s).space.vmas = [] ∧ (([SpaceOp.mmap (some 0x7EFFF000)
        0x1000 protRead 0, .munmap 0x7EFFF000 0x1000].foldl SpaceState.perform s).mmap none
          0x1000 protRead 0).1 = .error .outOfMemory) (by decide +kernel)
  refine ⟨space, mem', pmm', hnew, ?_⟩
  intro s
  refine ⟨hvmas, hrefused, ?_⟩
  rw [hvmas]
  exact ⟨rfl, le_rfl, by decide +kernel, nofun⟩

end Sample

end AuraOS.UserSpace
