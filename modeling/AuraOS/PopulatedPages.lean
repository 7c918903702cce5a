import AuraOS.SpacePages

namespace AuraOS.UserSpace

open GuardedRuns PhysicalFrames PageTables VirtualAreas

variable {kern : KernelTables} {page phys lo hi length newBrk : Nat} {writable : Bool}
  {area : VmArea}

/-- `populated_memory_size`. -/
def AddressSpace.populatedMemorySize (space : AddressSpace) : Nat :=
  (space.vmas.map fun area => area.populatedPages.length * pageSize).sum

structure PageBase (kern : KernelTables) (page : Nat) : Prop where
  aligned : page % pageSize = 0
  low : page < 2 ^ 48
  own : kern.Private page

theorem pageBase_of_window (haligned : page % pageSize = 0) (hwindow : InWindow page pageSize) :
    PageBase kern page := by
  refine ⟨haligned, ?_, private_of_window ?_⟩ <;> grind

section Recorded

variable {kern : KernelTables} {mem after : Mem} {root : Nat} {pages : List (Nat × Nat)}

structure Recorded (kern : KernelTables) (mem : Mem) (root : Nat) (pages : List (Nat × Nat)) :
    Prop where
  nodup : (pages.map Prod.fst).Nodup
  window : ∀ entry ∈ pages, entry.1 % pageSize = 0 ∧ InWindow entry.1 pageSize
  frame : ∀ page, PageBase kern page → ∀ a, (page, a) ∈ pages ↔ pageFrame mem root page = some a

variable (h : Recorded kern mem root pages)
include h

theorem Recorded.perm {pages' : List (Nat × Nat)}
    (hperm : pages.Perm pages') : Recorded kern mem root pages' where
  nodup := (hperm.map Prod.fst).nodup_iff.mp h.nodup
  window := fun entry hentry => h.window entry (hperm.mem_iff.mpr hentry)
  frame := fun page hpage a => by rw [← hperm.mem_iff, h.frame page hpage]

theorem Recorded.congr
    (hsame : ∀ w, kern.Private w → w < 2 ^ 48 → pte after root w = pte mem root w) :
    Recorded kern after root pages where
  nodup := h.nodup
  window := h.window
  frame := fun page hpage a => by
    rw [h.frame page hpage, pageFrame, pageFrame, hsame page hpage.own hpage.low]

theorem Recorded.not_mem (hpage : PageBase kern page)
    (hnone : pte mem root page = none) : ∀ entry ∈ pages, entry.1 ≠ page := by
  rintro ⟨page', a⟩ hentry rfl
  have hframe := (h.frame page' hpage a).mp hentry
  rw [pageFrame, hnone] at hframe
  cases hframe

theorem Recorded.add {filled : Mem} (haligned : page % pageSize = 0)
    (hwindow : InWindow page pageSize) (hnone : pte mem root page = none) (hphys : IsFrame phys)
    (hset : PageSet mem filled after kern root page (makeEntry phys (pageFlags writable))) :
    Recorded kern after root ((page, phys) :: pages) := by
  have hbase : PageBase kern page := pageBase_of_window haligned hwindow
  have hnew := h.not_mem hbase hnone
  refine ⟨?_, ?_, ?_⟩
  · rw [List.map_cons, List.nodup_cons]
    refine ⟨fun hmem => ?_, h.nodup⟩
    obtain ⟨entry, hentry, heq⟩ := List.mem_map.mp hmem
    exact hnew entry hentry heq
  · intro entry hentry
    rcases List.mem_cons.mp hentry with rfl | hentry
    · exact ⟨haligned, hwindow⟩
    · exact h.window entry hentry
  · intro page' hpage' a
    rw [List.mem_cons, Prod.mk.injEq, pageFrame]
    by_cases heq : page' = page
    · subst heq
      rw [hset.self hpage'.own rfl, Option.map_some, entryAddr_makeEntry hphys, Option.some.injEq]
      refine ⟨?_, fun heq => .inl ⟨rfl, heq.symm⟩⟩
      rintro (⟨-, rfl⟩ | hmem)
      · rfl
      · exact absurd rfl (hnew _ hmem)
    · have hne : page' / pageSize ≠ page / pageSize := by
        have haligned' := hpage'.aligned
        grind
      rw [hset.other hpage'.own hpage'.low hbase.low hne, ← pageFrame, ← h.frame page' hpage']
      simp [heq]

theorem Recorded.addRange {vaddr size : Nat} {added : List (Nat × Nat)}
    (haligned : vaddr % pageSize = 0 ∧ size % pageSize = 0) (hwindow : InWindow vaddr size)
    (hnone : ∀ w, vaddr ≤ w → w < vaddr + size → pte mem root w = none)
    (hadded : Populated kern mem after root vaddr size writable added) :
    Recorded kern after root (added ++ pages) := by
  have hin : ∀ entry ∈ added, entry.1 % pageSize = 0 ∧ vaddr ≤ entry.1 ∧ entry.1 < vaddr + size :=
    fun entry hentry => (hadded.keys entry.1).mp (List.mem_map.mpr ⟨entry, hentry, rfl⟩)
  have hpage : ∀ page, page % pageSize = 0 → vaddr ≤ page → page < vaddr + size →
      InWindow page pageSize := by
    intro page hmod hlo hhi
    grind
  have hold : ∀ page, page % pageSize = 0 → vaddr ≤ page → page < vaddr + size →
      ∀ entry ∈ pages, entry.1 ≠ page := fun page hmod hlo hhi =>
    h.not_mem (pageBase_of_window hmod (hpage page hmod hlo hhi)) (hnone page hlo hhi)
  refine ⟨?_, ?_, ?_⟩
  · rw [List.map_append]
    refine List.Nodup.append hadded.nodup h.nodup fun page hnew hrecorded => ?_
    obtain ⟨hmod, hlo, hhi⟩ := (hadded.keys page).mp hnew
    obtain ⟨entry, hentry, heq⟩ := List.mem_map.mp hrecorded
    exact hold page hmod hlo hhi entry hentry heq
  · intro entry hentry
    rcases List.mem_append.mp hentry with hentry | hentry
    · obtain ⟨hmod, hlo, hhi⟩ := hin entry hentry
      exact ⟨hmod, hpage entry.1 hmod hlo hhi⟩
    · exact h.window entry hentry
  · intro page hbase a
    rw [List.mem_append]
    by_cases hrange : vaddr ≤ page ∧ page < vaddr + size
    · have hnot : (page, a) ∉ pages := fun hmem =>
        hold page hbase.aligned hrange.1 hrange.2 _ hmem rfl
      obtain ⟨entry, hentry, heq⟩ := List.mem_map.mp
        ((hadded.keys page).mpr ⟨hbase.aligned, hrange.1, hrange.2⟩)
      obtain ⟨page', phys⟩ := entry
      cases heq
      obtain ⟨hframe, hpte, -⟩ := hadded.entries page' phys hentry
      rw [or_iff_left hnot, pageFrame, hpte, Option.map_some, entryAddr_makeEntry hframe,
        Option.some.injEq]
      refine ⟨fun hmem => ?_, fun heq => heq ▸ hentry⟩
      obtain ⟨hframe', hpte', -⟩ := hadded.entries page' a hmem
      rw [hpte, Option.some.injEq] at hpte'
      have haddr := congrArg entryAddr hpte'
      rwa [entryAddr_makeEntry hframe, entryAddr_makeEntry hframe'] at haddr
    · have hnot : (page, a) ∉ added := fun hmem => hrange (hin _ hmem).2
      rw [or_iff_right hnot, h.frame page hbase, pageFrame, pageFrame,
        hadded.others page hbase.own hbase.low hrange]

theorem Recorded.remove (hclear : ∀ w, kern.Private w → w < 2 ^ 48 → pte after root w =
      if lo ≤ w ∧ w < hi then none else pte mem root w) :
    Recorded kern after root (pages.filter (outside lo hi)) := by
  refine ⟨h.nodup.sublist (List.filter_sublist.map Prod.fst),
    fun entry hentry => h.window entry (List.mem_filter.mp hentry).1, ?_⟩
  intro page hpage a
  rw [List.mem_filter, outside_iff, pageFrame, hclear page hpage.own hpage.low]
  by_cases hin : lo ≤ page ∧ page < hi
  · rw [if_pos hin]
    simp only [Option.map_none, reduceCtorEq, iff_false, not_and, not_or, not_lt, not_le]
    exact fun _ => hin
  · rw [if_neg hin, ← pageFrame, ← h.frame page hpage]
    refine and_iff_left ?_
    grind

end Recorded

section Operations

variable {kern : KernelTables} {s : SpaceState}

structure PagesRecorded (kern : KernelTables) (s : SpaceState) : Prop where
  placed : PlacedSpace kern s
  recorded : Recorded kern s.mem s.space.pml4 (records s.space.vmas)

theorem Unmapped.recorded {s' : SpaceState} (hcut : Unmapped kern s s' lo hi)
    (h : PagesRecorded kern s) : Recorded kern s'.mem s'.space.pml4 (records s'.space.vmas) := by
  rw [hcut.vmas, hcut.same.pml4]
  exact (h.recorded.remove hcut.pages).perm
    (cutAll_records h.placed.areas.areas hcut.low.1 hcut.low.2).symm

variable (h : PagesRecorded kern s)
include h

theorem munmap_recorded {addr : Nat} (hwindow : length ≠ 0 → InWindow addr length) :
    Recorded kern (s.munmap addr length).2.mem (s.munmap addr length).2.space.pml4
      (records (s.munmap addr length).2.space.vmas) := by
  rcases munmap_cases h.placed hwindow with heq | hcut
  · rw [heq]
    exact h.recorded
  · exact hcut.recorded h

omit h in
theorem records_append (vmas : List VmArea) (area : VmArea) :
    (area.populatedPages ++ records vmas).Perm (records (vmas ++ [area])) := by
  simp only [records, List.flatMap_append, List.flatMap_cons, List.flatMap_nil, List.append_nil]
  exact List.perm_append_comm

theorem mmap_recorded {addrHint : Option Nat} (prot flags : BitVec 32)
    (hwindow : length ≠ 0 → ∀ vaddr space,
      s.space.chooseRange addrHint (alignUpPage length) flags = .ok (vaddr, space) →
        InWindow vaddr length) :
    Recorded kern (s.mmap addrHint length prot flags).2.mem
      (s.mmap addrHint length prot flags).2.space.pml4
      (records (s.mmap addrHint length prot flags).2.space.vmas) := by
  rw [(mmap_sameSpace s addrHint length prot flags).pml4]
  rcases mmap_cases h.placed prot flags hwindow with ⟨hvmas, hkept⟩ | ⟨vaddr, area, -, hadded⟩
  · rw [hvmas]
    exact h.recorded.congr hkept
  · rw [hadded.vmas]
    refine Recorded.perm ?_ (records_append _ _)
    rcases hadded.pages with ⟨-, hnil, hmem⟩ | ⟨-, hpopulated⟩
    · rw [hnil, hmem]
      exact h.recorded
    · exact h.recorded.addRange hadded.aligned hadded.window
        (fun w => h.placed.absent hadded.window hadded.free) hpopulated

theorem handleDemandFault_recorded {faultAddr : Nat} (hwindow : InWindow faultAddr 1)
    (habsent : pte s.mem s.space.pml4 faultAddr = none) (isWrite : Bool) :
    Recorded kern (s.handleDemandFault faultAddr isWrite).2.mem
      (s.handleDemandFault faultAddr isWrite).2.space.pml4
      (records (s.handleDemandFault faultAddr isWrite).2.space.vmas) := by
  obtain ⟨tree, howns⟩ := h.placed.owns
  have haligned : alignDownPage faultAddr % pageSize = 0 := Nat.mul_mod_left _ _
  have hpage : InWindow (alignDownPage faultAddr) pageSize := by
    grind
  have hbase : PageBase kern (alignDownPage faultAddr) := pageBase_of_window haligned hpage
  rw [(handleDemandFault_sameSpace s faultAddr isWrite).pml4]
  rcases handleDemandFault_pages howns hbase.own isWrite with ⟨-, hvmas, hkept⟩ | ⟨-, idx, area,
    phys, hres⟩
  · rw [hvmas]
    exact h.recorded.congr fun w hw _ => hkept w hw
  · have hnone : pte s.mem s.space.pml4 (alignDownPage faultAddr) = none :=
      (pte_alignDownPage _ _ _).trans habsent
    have hnew := h.recorded.not_mem hbase hnone
    have hmem : area ∈ s.space.vmas := List.mem_of_getElem? hres.position
    have hinserted := insertPage_populatedPages area
      (fun entry hentry => hnew entry (List.mem_flatMap.mpr ⟨area, hmem, hentry⟩)) phys
    have hperm : ([(alignDownPage faultAddr, phys)] ++ records s.space.vmas).Perm
        (records (s.space.vmas.set idx (area.insertPage (alignDownPage faultAddr) phys))) :=
      records_set hres.position hinserted
    rw [hres.vmas]
    exact (h.recorded.add haligned hpage hnone hres.frame hres.page).perm hperm

theorem expandHeap_recorded (hgt : s.space.heapEnd < newBrk) (hle : newBrk ≤ mmapBaseStart) :
    Recorded kern s.mem (s.space.expandHeap newBrk).pml4
      (records (s.space.expandHeap newBrk).vmas) := by
  rw [(expandHeap_frames s.space newBrk).1]
  rcases expandHeap_cases h.placed.bounds h.placed.areas hgt hle with
    heq | ⟨-, ⟨before, area, after,
    hmove, -⟩ | ⟨hvmas, -⟩⟩
  · rw [heq]
    exact h.recorded
  · rw [hmove.records]
    exact h.recorded
  · rw [hvmas]
    exact h.recorded.perm (records_append s.space.vmas (heapArea (alignUpPage newBrk)))

theorem shrinkHeap_recorded (hlow : defaultUserHeapStart ≤ newBrk)
    (hle : newBrk ≤ s.space.heapEnd) :
    Recorded kern (s.shrinkHeap newBrk).mem (s.shrinkHeap newBrk).space.pml4
      (records (s.shrinkHeap newBrk).space.vmas) := by
  obtain ⟨cut, vmas, -, -, hstep, heq, hvmas⟩ := shrinkHeap_cases h.placed hlow hle
  have hrecorded : Recorded kern cut.mem cut.space.pml4 (records cut.space.vmas) := by
    rcases hstep with rfl | hcut
    · exact h.recorded
    · exact hcut.recorded h
  rw [heq]
  rcases hvmas with rfl | ⟨before, area, after, hmove⟩
  · exact hrecorded
  · simp only [hmove.records]
    exact hrecorded

theorem brk_recorded (newBrk : Nat) :
    Recorded kern (s.brk newBrk).2.mem (s.brk newBrk).2.space.pml4
      (records (s.brk newBrk).2.space.vmas) := by
  rcases brk_cases s newBrk with ⟨heq, -⟩ | ⟨⟨hge, hle, -⟩, ⟨hgt, heq⟩ | ⟨hlt, heq⟩⟩
  · rw [heq]
    exact h.recorded
  · rw [heq]
    exact expandHeap_recorded h hgt hle
  · rw [heq]
    exact shrinkHeap_recorded h (h.placed.bounds.start ▸ hge) hlt.le

end Operations

/-- A memory call as Ring 3 makes it: the fault handler is entered for absent pages only. -/
def RecordedCall (s : SpaceState) (op : SpaceOp) : Prop :=
  MemoryCall s op ∧
    ∀ faultAddr isWrite, op = .fault faultAddr isWrite → pte s.mem s.space.pml4 faultAddr = none

theorem pagesRecorded_perform (s : SpaceState) (op : SpaceOp) (h : PagesRecorded kern s)
    (hop : RecordedCall s op) : PagesRecorded kern (s.perform op) := by
  obtain ⟨hcall, hfault⟩ := hop
  refine ⟨placed_perform h.placed hcall, ?_⟩
  cases op with
  | mmap addrHint length prot flags => exact mmap_recorded h prot flags hcall
  | munmap addr length => exact munmap_recorded h hcall
  | brk newBrk => exact brk_recorded h newBrk
  | fault faultAddr isWrite => exact handleDemandFault_recorded h hcall (hfault _ _ rfl) isWrite
  | mapPage _ _ => exact hcall.elim
  | code _ _ => exact hcall.elim
  | stack _ _ => exact hcall.elim

theorem pagesRecorded_new {kernelCr3 : Nat} {mem mem' : Mem} {pmm pmm' : Pmm} {space : AddressSpace}
    (hroot : KernelRoot mem pmm kern kernelCr3)
    (hnew : AddressSpace.new kernelCr3 mem pmm = (some space, mem', pmm')) :
    PagesRecorded kern ⟨mem', pmm', space⟩ := by
  obtain ⟨hplaced, hnone⟩ := placed_new hroot hnew
  obtain ⟨-, hempty⟩ := new_areas hnew
  refine ⟨hplaced, ?_⟩
  simp only [hempty]
  refine ⟨List.nodup_nil, nofun, fun page hpage a => ?_⟩
  rw [pageFrame, hnone page hpage.own]
  simp [records]

section Presence

variable {kern : KernelTables} {s : SpaceState}

def RecordsPage (area : VmArea) (page : Nat) : Prop :=
  ∃ phys, (page, phys) ∈ area.populatedPages

def SpaceState.presentUserPages (s : SpaceState) : Finset Nat :=
  (Finset.range (2 ^ 36)).filter fun i =>
    (translate s.mem s.space.pml4 (i * pageSize)).any (·.user) = true

/-- A page of the window is present if and only if exactly one area records it, and
what an area records is a page of its own with the frame of its page table entry. -/
structure RecordsMatch (s : SpaceState) : Prop where
  present_iff : ∀ page, page % pageSize = 0 → InWindow page pageSize →
    ((pte s.mem s.space.pml4 page).isSome ↔
      ∃! idx : Nat, ∃ area, s.space.vmas[idx]? = some area ∧ RecordsPage area page)
  recorded : ∀ area ∈ s.space.vmas, ∀ page phys, (page, phys) ∈ area.populatedPages →
    InWindow page pageSize ∧ area.contains page = true ∧
      ∃ entry, pte s.mem s.space.pml4 page = some entry ∧ entryAddr entry = phys
  size : s.space.populatedMemorySize = 4096 * s.presentUserPages.card

theorem populatedMemorySize_eq (space : AddressSpace) :
    space.populatedMemorySize = (records space.vmas).length * pageSize := by
  rw [AddressSpace.populatedMemorySize, records, List.length_flatMap]
  induction space.vmas with
  | nil => rfl
  | cons area rest ih =>
    rw [List.map_cons, List.sum_cons, ih, List.map_cons, List.sum_cons, Nat.add_mul]

variable (h : PagesRecorded kern s)
include h

theorem PagesRecorded.unique {idx idx' : Nat} {area' : VmArea}
    (hget : s.space.vmas[idx]? = some area) (hpage : RecordsPage area page)
    (hget' : s.space.vmas[idx']? = some area') (hpage' : RecordsPage area' page) : idx' = idx := by
  have hkeys : (s.space.vmas.flatMap fun area => area.populatedPages.map Prod.fst).Nodup := by
    have hnodup := h.recorded.nodup
    rwa [records, List.map_flatMap] at hnodup
  have hdisjoint := (List.nodup_flatMap.mp hkeys).2
  have hapart : ∀ (i j : Nat) a b, i < j → s.space.vmas[i]? = some a → s.space.vmas[j]? = some b →
      RecordsPage a page → ¬ RecordsPage b page := by
    rintro i j a b hlt hi hj ⟨phys, ha⟩ ⟨phys', hb⟩
    obtain ⟨hilt, rfl⟩ := List.getElem?_eq_some_iff.mp hi
    obtain ⟨hjlt, rfl⟩ := List.getElem?_eq_some_iff.mp hj
    exact List.pairwise_iff_getElem.mp hdisjoint i j hilt hjlt hlt
      (List.mem_map.mpr ⟨_, ha, rfl⟩) (List.mem_map.mpr ⟨_, hb, rfl⟩)
  rcases Nat.lt_trichotomy idx' idx with hlt | heq | hlt
  · exact absurd hpage (hapart _ _ _ _ hlt hget' hget hpage')
  · exact heq
  · exact absurd hpage' (hapart _ _ _ _ hlt hget hget' hpage)

theorem PagesRecorded.present_iff (haligned : page % pageSize = 0)
    (hwindow : InWindow page pageSize) :
    (pte s.mem s.space.pml4 page).isSome ↔
      ∃! idx : Nat, ∃ area, s.space.vmas[idx]? = some area ∧ RecordsPage area page := by
  have hframe := h.recorded.frame page (pageBase_of_window haligned hwindow)
  constructor
  · intro hpresent
    obtain ⟨entry, hentry⟩ := Option.isSome_iff_exists.mp hpresent
    have hrecord := (hframe (entryAddr entry)).mpr (by rw [pageFrame, hentry]; rfl)
    obtain ⟨area, harea, hmem⟩ := List.mem_flatMap.mp hrecord
    obtain ⟨idx, hget⟩ := List.mem_iff_getElem?.mp harea
    refine ⟨idx, ⟨area, hget, _, hmem⟩, ?_⟩
    rintro idx' ⟨area', hget', hpage'⟩
    exact h.unique hget ⟨_, hmem⟩ hget' hpage'
  · rintro ⟨idx, ⟨area, hget, phys, hmem⟩, -⟩
    have hpresent := (hframe phys).mp (List.mem_flatMap.mpr ⟨area, List.mem_of_getElem? hget, hmem⟩)
    obtain ⟨entry, hentry, -⟩ := Option.map_eq_some_iff.mp hpresent
    simp [hentry]

theorem PagesRecorded.recorded_page (harea : area ∈ s.space.vmas)
    (hmem : (page, phys) ∈ area.populatedPages) :
    InWindow page pageSize ∧ area.contains page = true ∧
      ∃ entry, pte s.mem s.space.pml4 page = some entry ∧ entryAddr entry = phys := by
  have hrecord : (page, phys) ∈ records s.space.vmas := List.mem_flatMap.mpr ⟨area, harea, hmem⟩
  obtain ⟨haligned, hwindow⟩ := h.recorded.window _ hrecord
  have hown := (h.placed.areas.areas area harea).own _ hmem
  refine ⟨hwindow, ?_, ?_⟩
  · simp only [VmArea.contains, (h.placed.areas.areas area harea).endAddr, Bool.and_eq_true,
      decide_eq_true_eq]
    exact hown
  · have hframe := (h.recorded.frame page (pageBase_of_window haligned hwindow) phys).mp hrecord
    exact Option.map_eq_some_iff.mp hframe

theorem PagesRecorded.presentUserPages_eq :
    s.presentUserPages = ((records s.space.vmas).map fun entry => entry.1 / pageSize).toFinset := by
  obtain ⟨tree, howns⟩ := h.placed.owns
  have hsize : pageSize = 4096 := rfl
  ext i
  rw [SpaceState.presentUserPages, Finset.mem_filter, Finset.mem_range, List.mem_toFinset,
    List.mem_map, Option.any_eq_true]
  constructor
  · rintro ⟨hlow, tr, htr, huser⟩
    have hpriv : kern.Private (i * pageSize) := by
      by_contra hnot
      rw [supervisor_of_not_private howns hnot htr] at huser
      cases huser
    have hpte := translate_eq howns hpriv
    rw [show translate s.pages.mem s.space.pml4 (i * pageSize) = some tr from htr] at hpte
    obtain ⟨entry, hentry, -⟩ := Option.map_eq_some_iff.mp hpte.symm
    have hbase : PageBase kern (i * pageSize) := ⟨Nat.mul_mod_left _ _, by rw [hsize]; omega, hpriv⟩
    refine ⟨(i * pageSize, entryAddr entry), (h.recorded.frame _ hbase _).mpr ?_, ?_⟩
    · rw [pageFrame, show pte s.mem s.space.pml4 (i * pageSize) = some entry from hentry]
      rfl
    · exact Nat.mul_div_cancel i (by omega)
  · rintro ⟨⟨page, phys⟩, hrecord, rfl⟩
    obtain ⟨haligned, hwindow⟩ := h.recorded.window _ hrecord
    have hbase : PageBase kern page := pageBase_of_window haligned hwindow
    have hpage : page / pageSize * pageSize = page :=
      Nat.div_mul_cancel (Nat.dvd_of_mod_eq_zero haligned)
    have hframe := (h.recorded.frame page hbase phys).mp hrecord
    obtain ⟨entry, hentry, -⟩ := Option.map_eq_some_iff.mp hframe
    have htr := translate_eq howns hbase.own
    rw [show pte s.pages.mem s.space.pml4 page = some entry from hentry] at htr
    refine ⟨?_, _, hpage.symm ▸ htr, rfl⟩
    grind

theorem PagesRecorded.size : s.space.populatedMemorySize = 4096 * s.presentUserPages.card := by
  have hnodup : ((records s.space.vmas).map fun entry => entry.1 / pageSize).Nodup := by
    have hkeys : ((records s.space.vmas).map fun entry => entry.1 / pageSize) =
        ((records s.space.vmas).map Prod.fst).map (· / pageSize) := by
      rw [List.map_map]
      rfl
    rw [hkeys]
    refine List.Nodup.map_on (fun page hpage page' hpage' heq => ?_) h.recorded.nodup
    obtain ⟨entry, hentry, rfl⟩ := List.mem_map.mp hpage
    obtain ⟨entry', hentry', rfl⟩ := List.mem_map.mp hpage'
    have haligned := (h.recorded.window entry hentry).1
    have haligned' := (h.recorded.window entry' hentry').1
    grind
  rw [h.presentUserPages_eq, List.toFinset_card_of_nodup hnodup, List.length_map,
    populatedMemorySize_eq, Nat.mul_comm]
  rfl

omit h in
/-- After any calls on a new space the records match the page tables. -/
theorem records_match {kernelCr3 : Nat} {mem mem' : Mem} {pmm pmm' : Pmm} {space : AddressSpace}
    (hroot : KernelRoot mem pmm kern kernelCr3)
    (hnew : AddressSpace.new kernelCr3 mem pmm = (some space, mem', pmm')) {ops : List SpaceOp}
    (hops : Guarded SpaceState.perform RecordedCall ⟨mem', pmm', space⟩ ops) :
    RecordsMatch (ops.foldl SpaceState.perform ⟨mem', pmm', space⟩) := by
  have h : PagesRecorded kern (ops.foldl SpaceState.perform ⟨mem', pmm', space⟩) :=
    invariant_of_guarded pagesRecorded_perform (pagesRecorded_new hroot hnew) hops
  exact ⟨fun page => h.present_iff, fun area harea page phys => h.recorded_page harea, h.size⟩

omit h in
/-- Two pages are populated, one of them is unmapped again, and the heap grows. -/
theorem records_match_after_split :
    ∃ space mem' pmm', AddressSpace.new 0x1000 hardwareTables (fewFrames 8) =
        (some space, mem', pmm') ∧
      RecordsMatch ([SpaceOp.mmap none 0x2000 protWrite mapPopulate, .munmap 0x60000000 0x1000,
        .brk 0x50001000].foldl SpaceState.perform (SpaceState.mk mem' pmm' space)) := by
  obtain ⟨space, mem', pmm', hnew, hchosen⟩ := exists_new (n := 8)
    (P := fun s => (s.space.chooseRange none (alignUpPage 0x2000) mapPopulate).toOption.map
      Prod.fst = some 0x60000000) (by decide +kernel)
  exact ⟨space, mem', pmm', hnew, records_match (hardwareKernel_root _) hnew
    ⟨⟨fun _ _ _ => inWindow_of_chosen hchosen ⟨by decide, by decide⟩, nofun⟩,
      ⟨fun _ => ⟨by decide, by decide⟩, nofun⟩, ⟨trivial, nofun⟩, trivial⟩⟩

end Presence

end AuraOS.UserSpace
