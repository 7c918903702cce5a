import AuraOS.LoadedPages

namespace AuraOS.UserSpace

open GuardedRuns PathTrees PhysicalFrames PageTables VirtualAreas ElfLoader

variable {area part : VmArea} {virt lo hi length : Nat} {vmas : List VmArea}
  {phdrs : List Elf64ProgramHeader} {data : List (BitVec 8)} {stray : Nat → BitVec 8}
  {image : PageImage}

structure AreaAllows (area : VmArea) (write : Bool) : Prop where
  write : write = true → area.isWritable = true
  notGuard : area.isGuardPage = false
  accessible : area.prot ≠ protNone

def PermissionsAgree (s : SpaceState) : Prop :=
  ∀ area ∈ s.space.vmas, ∀ virt, area.contains virt = true → ∀ entry,
    pte s.mem s.space.pml4 virt = some entry → AreaAllows area (hasFlag entry PageTables.writable)

section Areas

theorem accessible_of_writable (h : area.isWritable = true) : area.prot ≠ protNone := by
  intro hprot
  rw [VmArea.isWritable, hprot] at h
  revert h
  decide

theorem areaAllows_of_writable (hwrite : area.isWritable = true) (hguard : area.isGuardPage = false)
    (write : Bool) : AreaAllows area write :=
  ⟨fun _ => hwrite, hguard, accessible_of_writable hwrite⟩

theorem AreaPages.contains_iff (h : AreaPages area) :
    area.contains virt = true ↔ area.start ≤ virt ∧ virt < area.start + area.size := by
  rw [VmArea.contains, h.endAddr, Bool.and_eq_true, decide_eq_true_eq, decide_eq_true_eq]

theorem AreaPages.private_of_contains (h : AreaPages area) (kern : KernelTables)
    (hcontains : area.contains virt = true) : kern.Private virt ∧ virt < 2 ^ 48 := by
  obtain ⟨hlo, hhi⟩ := h.contains_iff.mp hcontains
  have hwindow := h.window
  refine ⟨private_of_inWindow hwindow hlo hhi, ?_⟩
  grind

structure PartOf (part area : VmArea) : Prop where
  inside : area.start ≤ part.start ∧ part.start + part.size ≤ area.start + area.size
  prot : part.prot = area.prot
  guard : part.isGuardPage = area.isGuardPage
  name : part.name = area.name

theorem PartOf.allows (h : PartOf part area) {write : Bool} (hallows : AreaAllows area write) :
    AreaAllows part write := by
  refine ⟨fun hwrite => ?_, h.guard.trans hallows.notGuard, h.prot ▸ hallows.accessible⟩
  rw [VmArea.isWritable, h.prot]
  exact hallows.write hwrite

theorem partOf_of_cut (hpieces : Pieces area lo hi (VmArea.cut lo hi (hi - lo) area))
    (h : part ∈ VmArea.cut lo hi (hi - lo) area) : PartOf part area := by
  have hsame : part.prot = area.prot ∧ part.isGuardPage = area.isGuardPage := by
    rcases mem_cut h with ⟨rfl, -⟩ | ⟨-, pages, ⟨-, rfl⟩ | ⟨-, rfl⟩⟩
    · exact ⟨rfl, rfl⟩
    · exact ⟨rfl, rfl⟩
    · exact ⟨rfl, rfl⟩
  exact ⟨hpieces.inside part h, hsame.1, hsame.2, hpieces.name part h⟩

end Areas

section Steps

variable {kern : KernelTables} {s s' : SpaceState}

structure Permitted (kern : KernelTables) (s : SpaceState) : Prop where
  placed : PlacedSpace kern s
  agrees : PermissionsAgree s
  heap : ∀ area ∈ s.space.vmas, area.name = .heap →
    area.isWritable = true ∧ area.isGuardPage = false

theorem Permitted.kept (h : Permitted kern s) (hplaced : PlacedSpace kern s')
    (hpages : ∀ w, kern.Private w → w < 2 ^ 48 → ∀ entry,
      pte s'.mem s'.space.pml4 w = some entry → pte s.mem s.space.pml4 w = some entry)
    (hareas : ∀ part ∈ s'.space.vmas,
      part.name = .heap ∧ part.isWritable = true ∧ part.isGuardPage = false ∨
        ∃ area ∈ s.space.vmas, PartOf part area) : Permitted kern s' := by
  refine ⟨hplaced, fun part hpart virt hcontains entry hentry => ?_, fun part hpart hname => ?_⟩
  · have hpartPages := hplaced.areas.areas part hpart
    rcases hareas part hpart with ⟨-, hwrite, hguard⟩ | ⟨area, harea, hpartOf⟩
    · exact areaAllows_of_writable hwrite hguard _
    · obtain ⟨hpriv, hlow⟩ := hpartPages.private_of_contains kern hcontains
      have hin := hpartPages.contains_iff.mp hcontains
      refine hpartOf.allows
        (h.agrees area harea virt ?_ entry (hpages virt hpriv hlow entry hentry))
      refine (h.placed.areas.areas area harea).contains_iff.mpr ?_
      have hinside := hpartOf.inside
      omega
  · rcases hareas part hpart with ⟨-, hopen⟩ | ⟨area, harea, hpartOf⟩
    · exact hopen
    · have hopen := h.heap area harea (hpartOf.name ▸ hname)
      rw [VmArea.isWritable, hpartOf.prot, hpartOf.guard]
      exact hopen

theorem partOf_self (area : VmArea) : PartOf area area :=
  ⟨⟨le_rfl, le_rfl⟩, rfl, rfl, rfl⟩

theorem Unmapped.permitted (hcut : Unmapped kern s s' lo hi) (h : Permitted kern s) :
    Permitted kern s' := by
  refine h.kept (hcut.placed h.placed) (fun w hw hlow entry hentry => ?_) fun part hpart => ?_
  · rw [hcut.same.pml4, hcut.pages w hw hlow] at hentry
    split at hentry
    · cases hentry
    · exact hentry
  · obtain ⟨area, harea, hmem, -, hpieces⟩ := hcut.piece h.placed hpart
    exact .inr ⟨area, harea, partOf_of_cut hpieces hmem⟩

theorem munmap_permitted (h : Permitted kern s) {addr : Nat}
    (hwindow : length ≠ 0 → InWindow addr length) : Permitted kern (s.munmap addr length).2 := by
  rcases munmap_cases h.placed hwindow with heq | hcut
  · rw [heq]
    exact h
  · exact hcut.permitted h

theorem HeapResized.permitted {stop : Nat} {before after : List VmArea}
    (hmove : HeapResized stop s.space.vmas s'.space.vmas before area after) (h : Permitted kern s)
    (hplaced : PlacedSpace kern s') (hmem : s'.mem = s.mem) (hpml4 : s'.space.pml4 = s.space.pml4) :
    Permitted kern s' := by
  refine h.kept hplaced (fun w _ _ entry hentry => by rwa [hmem, hpml4] at hentry) ?_
  intro part hpart
  have hopen := h.heap area (by simp [hmove.split]) hmove.name
  rw [hmove.split'] at hpart
  rcases List.mem_append.mp hpart with hpart | hpart
  · exact .inr ⟨part, by simp [hmove.split, hpart], partOf_self part⟩
  · rcases List.mem_cons.mp hpart with rfl | hpart
    · exact .inl ⟨hmove.name, hopen⟩
    · exact .inr ⟨part, by simp [hmove.split, hpart], partOf_self part⟩

theorem heapArea_writable (stop : Nat) : (heapArea stop).isWritable = true := by
  change ((protRead ||| protWrite) &&& protWrite != 0) = true
  decide

theorem brk_permitted (h : Permitted kern s) (newBrk : Nat) : Permitted kern (s.brk newBrk).2 := by
  have hplaced := brk_placed h.placed newBrk
  rcases brk_cases s newBrk with ⟨heq, -⟩ | ⟨⟨hge, hle, -⟩, ⟨hgt, heq⟩ | ⟨hlt, heq⟩⟩
  · rw [heq]
    exact h
  · rw [heq] at hplaced ⊢
    obtain ⟨hpml4, -⟩ := expandHeap_frames s.space newBrk
    rcases expandHeap_cases h.placed.bounds h.placed.areas hgt hle with hsame |
      ⟨-, ⟨before, area, after, hmove, -⟩ | ⟨hvmas, -⟩⟩
    · rw [hsame]
      exact h
    · exact hmove.permitted h hplaced rfl hpml4
    · refine h.kept hplaced (fun w _ _ entry hentry => by rwa [hpml4] at hentry) ?_
      intro part hpart
      simp only [hvmas] at hpart
      rcases List.mem_append.mp hpart with hpart | hpart
      · exact .inr ⟨part, hpart, partOf_self part⟩
      · rw [List.mem_singleton.mp hpart]
        exact .inl ⟨rfl, heapArea_writable _, rfl⟩
  · obtain ⟨cut, vmas, -, -, hcut, hshrunk, hvmas⟩ :=
      shrinkHeap_cases h.placed (h.placed.bounds.start ▸ hge) hlt.le
    rw [heq, hshrunk] at hplaced ⊢
    have hpermitted : Permitted kern cut := by
      rcases hcut with rfl | hcut
      · exact h
      · exact hcut.permitted h
    rcases hvmas with rfl | ⟨before, area, after, hmove⟩
    · exact hpermitted.kept hplaced (fun _ _ _ _ hentry => hentry) fun part hpart =>
        .inr ⟨part, hpart, partOf_self part⟩
    · exact hmove.permitted hpermitted hplaced rfl rfl

theorem mmap_permitted (h : Permitted kern s) {addrHint : Option Nat} {prot flags : BitVec 32}
    (hwindow : length ≠ 0 → ∀ vaddr space,
      s.space.chooseRange addrHint (alignUpPage length) flags = .ok (vaddr, space) →
        InWindow vaddr length) (hprot : flags &&& mapPopulate ≠ 0 → prot ≠ protNone) :
    Permitted kern (s.mmap addrHint length prot flags).2 := by
  have hplaced := mmap_placed h.placed prot flags hwindow
  have hpml4 := (mmap_sameSpace s addrHint length prot flags).pml4
  rcases mmap_cases h.placed prot flags hwindow with ⟨hvmas, hsame⟩ | ⟨vaddr, new, -, hadded⟩
  · refine h.kept hplaced (fun w hw hlow entry hentry => ?_) fun part hpart => ?_
    · rwa [hpml4, hsame w hw hlow] at hentry
    · rw [hvmas] at hpart
      exact .inr ⟨part, hpart, partOf_self part⟩
  have hnew : new.isGuardPage = false ∧ new.prot = prot ∧ new.name = .mmap ∧
      new.start = vaddr ∧ new.size = alignUpPage length := by
    rw [hadded.shape]
    exact ⟨rfl, rfl, rfl, rfl, rfl⟩
  obtain ⟨hguard, hnewProt, hname, hstart, hsize⟩ := hnew
  refine ⟨hplaced, fun area harea virt hcontains entry hentry => ?_, fun area harea hheap => ?_⟩
  · have hpages := hplaced.areas.areas area harea
    obtain ⟨hpriv, hlow⟩ := hpages.private_of_contains kern hcontains
    have hin := hpages.contains_iff.mp hcontains
    rw [hpml4] at hentry
    rw [hadded.vmas] at harea
    rcases List.mem_append.mp harea with hold | hfresh
    · -- an earlier area does not meet the new range
      have hout : ¬ (vaddr ≤ virt ∧ virt < vaddr + alignUpPage length) :=
        fun hrange => (hadded.free area hold).not_has hin hrange
      rw [hadded.others hpriv hlow hout] at hentry
      exact h.agrees area hold virt hcontains entry hentry
    · rw [List.mem_singleton.mp hfresh] at hin ⊢
      rw [hstart, hsize] at hin
      rcases hadded.pages with ⟨-, -, hmem⟩ | ⟨hpopulate, hpopulated⟩
      · rw [hmem, h.placed.absent hadded.window hadded.free hin.1 hin.2] at hentry
        cases hentry
      · have hkey : alignDownPage virt ∈ new.populatedPages.map Prod.fst := by
          refine (hpopulated.keys _).mpr ?_
          have haligned := hadded.aligned
          grind
        obtain ⟨⟨page, phys⟩, hmem, rfl⟩ := List.mem_map.mp hkey
        obtain ⟨-, hpte, -⟩ := hpopulated.entries _ _ hmem
        rw [pte_alignDownPage, hentry] at hpte
        cases hpte
        rw [writable_pageEntry]
        refine ⟨fun hwrite => ?_, hguard, hnewProt.symm ▸ hprot hpopulate⟩
        rw [VmArea.isWritable, hnewProt]
        exact hwrite
  · rw [hadded.vmas] at harea
    rcases List.mem_append.mp harea with hold | hfresh
    · exact h.heap area hold hheap
    · rw [List.mem_singleton.mp hfresh, hname] at hheap
      cases hheap

def FaultPermits (s : SpaceState) (faultAddr : Nat) : Prop :=
  ∀ first, s.space.vmas.find? (·.contains faultAddr) = some first → first.isGuardPage = false →
    first.prot ≠ protNone → ∀ area ∈ s.space.vmas, area.contains faultAddr = true →
      AreaAllows area first.isWritable

theorem handleDemandFault_permitted (h : Permitted kern s) {faultAddr : Nat}
    (hwindow : InWindow faultAddr 1) (isWrite : Bool) (hfault : FaultPermits s faultAddr) :
    Permitted kern (s.handleDemandFault faultAddr isWrite).2 := by
  obtain ⟨tree, howns⟩ := h.placed.owns
  have hplaced := handleDemandFault_placed h.placed hwindow isWrite
  have hpml4 := (handleDemandFault_sameSpace s faultAddr isWrite).pml4
  have hpage : InWindow (alignDownPage faultAddr) 1 := by
    grind
  have hpagePriv : kern.Private (alignDownPage faultAddr) :=
    private_of_inWindow hpage le_rfl (Nat.lt_succ_self _)
  rcases handleDemandFault_pages howns hpagePriv isWrite with ⟨-, hvmas, hsame⟩ |
    ⟨-, idx, first, phys, hres⟩
  · refine h.kept hplaced (fun w hw _ entry hentry => ?_) fun part hpart => ?_
    · rwa [hpml4, hsame w hw] at hentry
    · rw [hvmas] at hpart
      exact .inr ⟨part, hpart, partOf_self part⟩
  -- the areas are the earlier ones, one of them with one more record
  have hold : ∀ part ∈ (s.handleDemandFault faultAddr isWrite).2.space.vmas,
      ∃ area ∈ s.space.vmas, PartOf part area ∧ part.contains = area.contains := by
    rw [hres.vmas]
    refine forall_mem_set (fun area harea => ⟨area, harea, partOf_self area, rfl⟩) ?_
    exact ⟨first, List.mem_of_getElem? hres.position, ⟨⟨le_rfl, le_rfl⟩, rfl, rfl, rfl⟩, rfl⟩
  refine ⟨hplaced, fun part hpart virt hcontains entry hentry => ?_, fun part hpart hname => ?_⟩
  · obtain ⟨area, harea, hpartOf, hsame⟩ := hold part hpart
    rw [hsame] at hcontains
    have hpages := h.placed.areas.areas area harea
    obtain ⟨hpriv, hlow⟩ := hpages.private_of_contains kern hcontains
    have hentries := hres.page.entries virt hpriv
    rw [hpml4, hentries] at hentry
    refine hpartOf.allows ?_
    split at hentry
    · rename_i hpath
      cases hentry
      rw [writable_pageEntry]
      refine hfault first hres.first hres.notGuard hres.accessible area harea ?_
      have hdiv : virt / pageSize = faultAddr / pageSize := by
        rw [← alignDownPage_div faultAddr]
        refine (path_inj hlow ?_).mp hpath
        grind
      exact hpages.contains_iff.mpr (hpages.page_mem hcontains hdiv.symm)
    · exact h.agrees area harea virt hcontains entry hentry
  · obtain ⟨area, harea, hpartOf, -⟩ := hold part hpart
    have hopen := h.heap area harea (hpartOf.name ▸ hname)
    rw [VmArea.isWritable, hpartOf.prot, hpartOf.guard]
    exact hopen

def CallPermits (s : SpaceState) : SpaceOp → Prop
  | .mmap _ _ prot flags => flags &&& mapPopulate ≠ 0 → prot ≠ protNone
  | .fault faultAddr _ => FaultPermits s faultAddr
  | _ => True

theorem permitted_perform (s : SpaceState) (op : SpaceOp) (h : Permitted kern s)
    (hop : MemoryCall s op ∧ CallPermits s op) : Permitted kern (s.perform op) := by
  obtain ⟨hcall, hpermits⟩ := hop
  cases op with
  | mmap addrHint length prot flags => exact mmap_permitted h hcall hpermits
  | munmap addr length => exact munmap_permitted h hcall
  | brk newBrk => exact brk_permitted h newBrk
  | fault faultAddr isWrite => exact handleDemandFault_permitted h hcall isWrite hpermits
  | mapPage _ _ => exact hcall.elim
  | code _ _ => exact hcall.elim
  | stack _ _ => exact hcall.elim

end Steps

section Loading

theorem segmentArea_pages {phdr : Elf64ProgramHeader} (hloaded : phdr.skipped = false)
    (hwindow : InWindow phdr.pVaddr phdr.pMemsz) :
    AreaPages phdr.area ∧ phdr.area.isGuardPage = false ∧ phdr.area.name ≠ .heap := by
  have hpos : 0 < phdr.pMemsz := by
    simp only [Elf64ProgramHeader.skipped, Bool.or_eq_false_iff, beq_eq_false_iff_ne] at hloaded
    exact Nat.pos_of_ne_zero hloaded.2
  obtain ⟨hstart, hareaSize, hguard, hname, hentries⟩ := area_fields phdr
  have hend : phdr.pageEnd =
      (phdr.pVaddr + phdr.pMemsz + (pageSize - 1)) / pageSize * pageSize := by
    grind
  have hbounds : 0x40000000 ≤ phdr.pageStart ∧ phdr.pageStart < phdr.pageEnd ∧
      phdr.pageEnd ≤ 0xC0000000 ∧ phdr.pageStart % pageSize = 0 ∧ phdr.pageEnd % pageSize = 0 := by
    grind
  have hsize : sub64 phdr.pageEnd phdr.pageStart = phdr.pageEnd - phdr.pageStart :=
    sub64_eq (by omega) (by omega)
  have heager : phdr.eagerPageEnd ≤ phdr.pageEnd := Nat.min_le_right _ _
  refine ⟨⟨⟨?_, ?_, ?_, .inl ?_⟩, ?_, fun entry hentry => ?_⟩, hguard, ?_⟩
  · rw [hstart]
    exact hbounds.2.2.2.1
  · omega
  · grind
  · omega
  · grind
  · obtain ⟨i, hi, heq⟩ := hentries entry hentry
    grind
  · rcases hname with hname | hname <;> rw [hname] <;> nofun

theorem stackArea_shape :
    AreaPages stackArea ∧ stackArea.isGuardPage = false ∧ stackArea.name = .stack := by
  refine ⟨⟨⟨?_, ?_, ?_, .inl ?_⟩, ⟨?_, ?_⟩, ?_⟩, ?_, ?_⟩
  all_goals decide +kernel

theorem stackGuard_shape : AreaPages stackGuard ∧ stackGuard.isWritable = false := by
  refine ⟨⟨⟨?_, ?_, ?_, .inl ?_⟩, ⟨?_, ?_⟩, nofun⟩, ?_⟩
  all_goals decide +kernel

theorem mem_registerArea {new : VmArea} (h : area ∈ registerArea vmas new) :
    area ∈ vmas ∨ area = new := by
  simp only [registerArea] at h
  repeat' split at h
  all_goals simp_all

theorem mem_loadAreas (h : area ∈ loadAreas phdrs vmas) :
    area ∈ vmas ∨ ∃ phdr ∈ phdrs, phdr.skipped = false ∧ area = phdr.area := by
  induction phdrs generalizing vmas with
  | nil => exact .inl h
  | cons phdr rest ih =>
    rw [loadAreas, List.filter_cons] at h
    cases hskipped : phdr.skipped with
    | true =>
      rw [hskipped] at h
      rcases ih h with hold | ⟨p, hp, hnew⟩
      · exact .inl hold
      · exact .inr ⟨p, .tail _ hp, hnew⟩
    | false =>
      rw [hskipped] at h
      rcases ih h with hold | ⟨p, hp, hnew⟩
      · rcases mem_registerArea hold with hold | rfl
        · exact .inl hold
        · exact .inr ⟨phdr, .head _, hskipped, rfl⟩
      · exact .inr ⟨p, .tail _ hp, hnew⟩

theorem imageAreas_shape
    (hwindow : ∀ phdr ∈ phdrs, phdr.skipped = false → InWindow phdr.pVaddr phdr.pMemsz)
    (h : area ∈ imageAreas phdrs) :
    AreaPages area ∧ area.name ≠ .heap ∧ (area.isWritable = true → area.isGuardPage = false) := by
  rcases mem_registerArea h with h | rfl
  · rcases mem_registerArea h with h | rfl
    · rcases mem_loadAreas h with hnil | ⟨phdr, hphdr, hloaded, rfl⟩
      · cases hnil
      · obtain ⟨hpages, hguard, hname⟩ := segmentArea_pages hloaded (hwindow phdr hphdr hloaded)
        exact ⟨hpages, hname, fun _ => hguard⟩
    · obtain ⟨hpages, hread⟩ := stackGuard_shape
      refine ⟨hpages, nofun, fun hwrite => ?_⟩
      cases hwrite
  · obtain ⟨hpages, hguard, hname⟩ := stackArea_shape
    exact ⟨hpages, by rw [hname]; nofun, fun _ => hguard⟩

def LoadInWindow (data : List (BitVec 8)) : Prop :=
  ∀ elf phdrs, ElfBinary.parse data = .ok elf → elf.programHeaders = .ok phdrs →
    ∀ phdr ∈ phdrs, phdr.skipped = false → InWindow phdr.pVaddr phdr.pMemsz

def mappedPages (data : List (BitVec 8)) (phdrs : List Elf64ProgramHeader) : List Nat :=
  loadPages data phdrs ++
    (stackImages defaultUserStackTop defaultUserStackPages 1).map PageImage.page

/-- Every page that is mapped lies in an area of the program, and only in areas that
may be written. -/
def LoadPermits (data : List (BitVec 8)) : Prop :=
  ∀ elf phdrs, ElfBinary.parse data = .ok elf → elf.programHeaders = .ok phdrs →
    ∀ page ∈ mappedPages data phdrs,
      (∃ area ∈ imageAreas phdrs, area.contains page = true) ∧
      ∀ area ∈ imageAreas phdrs, area.contains page = true → area.isWritable = true

theorem mem_mappedPages (h : image ∈ imagePages data stray phdrs) :
    image.page ∈ mappedPages data phdrs := by
  rcases List.mem_append.mp h with hload | hstack
  · obtain ⟨-, -, -, hpage⟩ := loadImages_cases hload
    exact List.mem_append_left _ hpage
  · exact List.mem_append_right _ (List.mem_map.mpr ⟨image, hstack, rfl⟩)

theorem imagePages_inWindow (hareas : ∀ area ∈ imageAreas phdrs, AreaPages area)
    (hcovered : ∀ page ∈ mappedPages data phdrs,
      ∃ area ∈ imageAreas phdrs, area.contains page = true) (kern : KernelTables)
    (h : image ∈ imagePages data stray phdrs) : kern.Private image.page ∧ image.page < 2 ^ 48 := by
  obtain ⟨area, harea, hcontains⟩ := hcovered _ (mem_mappedPages h)
  exact (hareas area harea).private_of_contains kern hcontains

theorem loadElf_permitted {kern : KernelTables} {mem mem' : Mem} {pmm pmm' : Pmm} {kernelCr3 : Nat}
    {loaded : LoadedElf} (hroot : KernelRoot mem pmm kern kernelCr3) (hwindow : LoadInWindow data)
    (hpermits : LoadPermits data)
    (hload : loadElf kernelCr3 data stray mem pmm = (.ok loaded, mem', pmm')) :
    Permitted kern ⟨mem', pmm', loaded.space⟩ := by
  obtain ⟨elf, phdrs, space, mem₁, pmm₁, hparse, hphdrs, hnew, hsame, hvmas, -, hlaid⟩ :=
    loadElf_lays hload
  obtain ⟨hplaced, hempty⟩ := placed_new hroot hnew
  obtain ⟨tree, howns⟩ := hplaced.owns
  have hpages := hpermits elf phdrs hparse hphdrs
  have hshape := fun area (harea : area ∈ imageAreas phdrs) =>
    imageAreas_shape (hwindow elf phdrs hparse hphdrs) harea
  have hareaPages : ∀ area ∈ imageAreas phdrs, AreaPages area := fun area harea =>
    (hshape area harea).1
  have himages := fun image (himage : image ∈ imagePages data stray phdrs) =>
    imagePages_inWindow hareaPages (fun page hpage => (hpages page hpage).1) kern himage
  obtain ⟨⟨tree', howns'⟩, hentries⟩ :=
    layPages_pages (fun image himage => (himages image himage).1)
    howns hlaid
  -- a present page is one of the pages laid
  have hlaidPage : ∀ w, kern.Private w → w < 2 ^ 48 → ∀ entry, pte mem' space.pml4 w = some entry →
      ∃ page ∈ mappedPages data phdrs, w / pageSize = page / pageSize := by
    intro w hw hlow entry hentry
    rcases hentries w hw with ⟨⟨image, himage, hpath⟩, -⟩ | ⟨-, hold⟩
    · exact ⟨image.page, mem_mappedPages himage, (path_inj hlow (himages image himage).2).mp hpath⟩
    · rw [show pte mem' space.pml4 w = none from hold.trans (hempty w hw)] at hentry
      cases hentry
  refine ⟨⟨⟨tree', ?_⟩, hsame.heapBounds hplaced.bounds, ?_, ?_⟩, ?_, ?_⟩
  · simp only [SpaceState.pages, hsame.pml4]
    exact howns'
  · simp only [hvmas]
    exact ⟨hareaPages, fun area harea hname => absurd hname (hshape area harea).2.1⟩
  · intro w hw hlow hpresent
    simp only [hsame.pml4] at hpresent
    obtain ⟨entry, hentry⟩ := Option.isSome_iff_exists.mp hpresent
    obtain ⟨page, hpage, hdiv⟩ := hlaidPage w hw hlow entry hentry
    obtain ⟨area, harea, hcontains⟩ := (hpages page hpage).1
    exact ⟨area, hvmas ▸ harea, (hareaPages area harea).page_mem hcontains hdiv⟩
  · intro area harea virt hcontains entry hentry
    simp only [hvmas] at harea
    simp only [hsame.pml4] at hentry
    have harea' := hareaPages area harea
    obtain ⟨hpriv, hlow⟩ := harea'.private_of_contains kern hcontains
    obtain ⟨page, hpage, hdiv⟩ := hlaidPage virt hpriv hlow entry hentry
    have hwrite := (hpages page hpage).2 area harea
      (harea'.contains_iff.mpr (harea'.page_mem hcontains hdiv.symm))
    exact areaAllows_of_writable hwrite ((hshape area harea).2.2 hwrite) _
  · intro area harea hname
    simp only [hvmas] at harea
    exact absurd hname (hshape area harea).2.1

/-- Page table entries and areas agree in every state of a run on a loaded program. -/
theorem permissionsAgree_of_guarded {kern : KernelTables} {mem mem' : Mem} {pmm pmm' : Pmm}
    {kernelCr3 : Nat} {data : List (BitVec 8)} {stray : Nat → BitVec 8} {loaded : LoadedElf}
    (hroot : KernelRoot mem pmm kern kernelCr3) (hwindow : LoadInWindow data)
    (hload : loadElf kernelCr3 data stray mem pmm = (.ok loaded, mem', pmm'))
    (hpermits : LoadPermits data) {ops : List SpaceOp}
    (hops : Guarded SpaceState.perform (fun s op => MemoryCall s op ∧ CallPermits s op)
      ⟨mem', pmm', loaded.space⟩ ops) (k : Nat) :
    PermissionsAgree ((ops.take k).foldl SpaceState.perform ⟨mem', pmm', loaded.space⟩) := by
  have hprefix := (guarded_append.mp ((List.take_append_drop k ops).symm ▸ hops)).1
  have hpermitted : Permitted kern
      ((ops.take k).foldl SpaceState.perform ⟨mem', pmm', loaded.space⟩) :=
    invariant_of_guarded permitted_perform (loadElf_permitted hroot hwindow hpermits hload) hprefix
  exact hpermitted.agrees

/-- A program with a segment that may be written, a fault on its second page, a mapping
and a larger heap. -/
theorem permissionsAgree_writable_program :
    ∃ loaded mem' pmm',
      loadElf 0x1000 (programWith 6) (fun _ => 0) hardwareTables (fewFrames 24) =
        (.ok loaded, mem', pmm') ∧
      ∀ k, PermissionsAgree (([SpaceOp.fault 0x40001000 true, .munmap 0x40000000 0x1000,
        .mmap (some 0x60000000) 0x1000 protRead (mapFixed ||| mapPopulate), .brk 0x50001000].take
          k).foldl SpaceState.perform (SpaceState.mk mem' pmm' loaded.space)) := by
  have hloads : ∃ loaded mem' pmm', loadElf 0x1000 (programWith 6) (fun _ => 0) hardwareTables
      (fewFrames 24) = (.ok loaded, mem', pmm') := loadElf_of_isSome (by decide +kernel)
  obtain ⟨loaded, mem', pmm', hload⟩ := hloads
  have hheaders : ∀ {elf phdrs}, ElfBinary.parse (programWith 6) = .ok elf →
      elf.programHeaders = .ok phdrs →
      phdrs = [⟨1, 6, 120, 0x40000010, 0x40000010, 4, 0x2000, 0x1000⟩] :=
    fun hparse hphdrs => programHeaders_unique (by decide +kernel) hparse hphdrs
  have hwindow : LoadInWindow (programWith 6) := by
    intro elf phdrs hparse hphdrs phdr hphdr _
    rw [hheaders hparse hphdrs, List.mem_singleton] at hphdr
    subst hphdr
    exact ⟨by decide, by decide⟩
  have hpermits : LoadPermits (programWith 6) := by
    intro elf phdrs hparse hphdrs
    rw [hheaders hparse hphdrs]
    decide +kernel
  have hfault : FaultPermits ⟨mem', pmm', loaded.space⟩ 0x40001000 := by
    obtain ⟨elf, phdrs, -, -, -, hparse, hphdrs, -, -, hvmas, -⟩ := loadElf_lays hload
    rw [hheaders hparse hphdrs] at hvmas
    have hopen : ∀ area ∈ imageAreas [⟨1, 6, 120, 0x40000010, 0x40000010, 4, 0x2000, 0x1000⟩],
        area.contains 0x40001000 = true → area.isWritable = true ∧ area.isGuardPage = false := by
      decide +kernel
    intro first _ _ _ area harea hcontains
    obtain ⟨hwrite, hguard⟩ := hopen area (hvmas ▸ harea) hcontains
    exact areaAllows_of_writable hwrite hguard _
  have hops : Guarded SpaceState.perform (fun s op => MemoryCall s op ∧ CallPermits s op)
      ⟨mem', pmm', loaded.space⟩ [SpaceOp.fault 0x40001000 true, .munmap 0x40000000 0x1000,
        .mmap (some 0x60000000) 0x1000 protRead (mapFixed ||| mapPopulate), .brk 0x50001000] := by
    refine ⟨⟨⟨by decide, by decide⟩, hfault⟩, ⟨fun _ => ⟨by decide, by decide⟩, trivial⟩,
      ⟨fun _ vaddr space hchoose => ?_, fun _ => by decide⟩, ⟨trivial, trivial⟩, trivial⟩
    have hfixed : (mapFixed ||| mapPopulate) &&& mapFixed ≠ 0 := by decide
    simp only [AddressSpace.chooseRange, if_pos hfixed] at hchoose
    repeat' split at hchoose
    all_goals cases hchoose
    exact ⟨by decide, by decide⟩
  exact ⟨loaded, mem', pmm', hload,
    permissionsAgree_of_guarded (hardwareKernel_root _) hwindow hload
    hpermits hops⟩

def disagreesAt (s : SpaceState) (virt : Nat) : Bool :=
  s.space.vmas.any fun area => area.contains virt &&
    (pte s.mem s.space.pml4 virt).any fun entry =>
      hasFlag entry PageTables.writable && !area.isWritable || area.prot == protNone

theorem not_permissionsAgree {s : SpaceState} (h : disagreesAt s virt = true) :
    ¬ PermissionsAgree s := by
  intro hagrees
  obtain ⟨area, harea, htest⟩ := List.any_eq_true.mp h
  obtain ⟨hcontains, hpage⟩ := Bool.and_eq_true_iff.mp htest
  cases hentry : pte s.mem s.space.pml4 virt with
  | none =>
    rw [hentry] at hpage
    cases hpage
  | some entry =>
    rw [hentry] at hpage
    have hallows := hagrees area harea virt hcontains entry hentry
    rcases Bool.or_eq_true_iff.mp hpage with hwrite | hnone
    · obtain ⟨hflag, hread⟩ := Bool.and_eq_true_iff.mp hwrite
      rw [hallows.write hflag] at hread
      cases hread
    · exact hallows.accessible (beq_iff_eq.mp hnone)

/-- The page of a segment that may not be written is writable; a page without access
that is populated is present. -/
theorem page_against_area :
    (∃ loaded mem' pmm',
      loadElf 0x1000 sampleProgram (fun _ => 0) hardwareTables (fewFrames 16) =
        (.ok loaded, mem', pmm') ∧
      ¬ PermissionsAgree ⟨mem', pmm', loaded.space⟩) ∧
    ∃ loaded mem' pmm',
      loadElf 0x1000 (programWith 6) (fun _ => 0) hardwareTables (fewFrames 24) =
        (.ok loaded, mem', pmm') ∧
      ¬ PermissionsAgree (SpaceState.perform ⟨mem', pmm', loaded.space⟩
        (.mmap none 0x1000 protNone mapPopulate)) := by
  constructor
  · obtain ⟨loaded, mem', pmm', hload, htest⟩ := exists_loaded sampleProgram 16
      (P := fun s => disagreesAt s 0x40000000 = true) (by decide +kernel)
    exact ⟨loaded, mem', pmm', hload, not_permissionsAgree htest⟩
  · obtain ⟨loaded, mem', pmm', hload, htest⟩ := exists_loaded (programWith 6) 24
      (P := fun s => disagreesAt (s.perform (.mmap none 0x1000 protNone mapPopulate)) 0x60000000 =
        true) (by decide +kernel)
    exact ⟨loaded, mem', pmm', hload, not_permissionsAgree htest⟩

end Loading

end AuraOS.UserSpace
