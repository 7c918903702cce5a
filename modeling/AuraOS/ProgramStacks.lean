import AuraOS.LoadDemands
import AuraOS.UnmappedRanges

namespace AuraOS.UserSpace

open PathTrees PhysicalFrames PageTables VirtualAreas ElfLoader

variable {space : AddressSpace} {virt : Nat}

def AddressSpace.isGuardPage (space : AddressSpace) (addr : Nat) : Bool :=
  match space.findVma addr with
  | some area => area.isGuardPage || area.prot == protNone
  | none => false

def InStack (virt : Nat) : Prop :=
  defaultUserStackTop - defaultUserStackPages * pageSize ≤ virt ∧ virt < defaultUserStackTop

def InGuard (virt : Nat) : Prop :=
  defaultUserStackTop - (defaultUserStackPages + 1) * pageSize ≤ virt ∧
    virt < defaultUserStackTop - defaultUserStackPages * pageSize

structure StackIntact (s : SpaceState) : Prop where
  present : ∀ virt, InStack virt → ∃ entry, pte s.mem s.space.pml4 virt = some entry ∧
    hasFlag entry PageTables.writable = true
  area : ∃ area ∈ s.space.vmas, area.name = .stack ∧ area.prot = protRead ||| protWrite ∧
    ∀ virt, InStack virt → area.contains virt = true
  absent : ∀ virt, InGuard virt → pte s.mem s.space.pml4 virt = none
  reported : ∀ virt, InGuard virt → s.space.isGuardPage virt = true
  traps : ∀ virt, InGuard virt → ∀ isWrite, (s.handleDemandFault virt isWrite).1 = false

section Registering

variable {vmas : List VmArea} {area new : VmArea}

theorem overlaps_of_contains {x : Nat} (h : area.contains x = true) (hnew : new.contains x = true) :
    area.overlaps new.start new.size = true := by
  rw [contains_iff] at h hnew
  have hend : add64 new.start new.size = new.endAddr := rfl
  simp only [VmArea.overlaps, hend, Bool.not_eq_true', Bool.or_eq_false_iff,
    decide_eq_false_iff_not]
  omega

theorem mem_registerArea_of_mem (h : area ∈ vmas) : area ∈ registerArea vmas new := by
  simp only [registerArea]
  split
  · exact h
  · split
    · exact h
    · exact List.mem_append_left _ h

theorem registerArea_of_overlap (h : area ∈ vmas)
    (hoverlap : area.overlaps new.start new.size = true) : registerArea vmas new = vmas := by
  have hany : vmas.any (·.overlaps new.start new.size) = true :=
    List.any_eq_true.mpr ⟨area, h, hoverlap⟩
  rw [registerArea, hany]
  split
  · rfl
  · rfl

theorem registerArea_of_free (hsize : new.size ≠ 0) (haligned : new.start % pageSize = 0)
    (hfree : ∀ area ∈ vmas, area.overlaps new.start new.size = false) :
    registerArea vmas new = vmas ++ [new] := by
  have hany : vmas.any (·.overlaps new.start new.size) = false := by
    rw [List.any_eq_false]
    intro area harea
    rw [hfree area harea]
    exact Bool.false_ne_true
  rw [registerArea, if_neg (by tauto), hany]
  rfl

theorem registerArea_apart (h : vmas.Pairwise Apart) (new : VmArea) :
    (registerArea vmas new).Pairwise Apart := by
  simp only [registerArea]
  split
  · exact h
  · split
    · exact h
    · rename_i hfree
      rw [List.pairwise_append]
      refine ⟨h, List.pairwise_singleton _ _, fun area harea other hother x hx => ?_⟩
      rw [List.mem_singleton.mp hother]
      by_contra hboth
      exact hfree (List.any_eq_true.mpr ⟨area, harea,
        overlaps_of_contains hx (Bool.not_eq_false _ ▸ hboth)⟩)

theorem loadAreas_apart (phdrs : List Elf64ProgramHeader) (h : vmas.Pairwise Apart) :
    (loadAreas phdrs vmas).Pairwise Apart := by
  rw [loadAreas]
  induction phdrs.filter (!·.skipped) generalizing vmas with
  | nil => exact h
  | cons phdr rest ih => exact ih (registerArea_apart h phdr.area)

theorem imageAreas_apart (phdrs : List Elf64ProgramHeader) : (imageAreas phdrs).Pairwise Apart :=
  registerArea_apart (registerArea_apart (loadAreas_apart phdrs List.Pairwise.nil) _) _

theorem isGuardPage_iff (h : space.vmas.Pairwise Apart) :
    space.isGuardPage virt = true ↔ ∃ area ∈ space.vmas, area.contains virt = true ∧
      (area.isGuardPage = true ∨ area.prot = protNone) := by
  rw [AddressSpace.isGuardPage, AddressSpace.findVma]
  cases hfind : space.vmas.find? (·.contains virt) with
  | none =>
    simp only [Bool.false_eq_true, false_iff]
    rintro ⟨area, harea, hcontains, -⟩
    rw [(find?_contains_iff h).mpr ⟨harea, hcontains⟩] at hfind
    cases hfind
  | some area =>
    have hmem := (find?_contains_iff h).mp hfind
    simp only [Bool.or_eq_true, beq_iff_eq]
    constructor
    · exact fun hguard => ⟨area, hmem.1, hmem.2, hguard⟩
    · rintro ⟨other, hother, hcontains, hguard⟩
      rw [(find?_contains_iff h).mpr ⟨hother, hcontains⟩] at hfind
      cases hfind
      exact hguard

theorem handleDemandFault_of_guard {s : SpaceState} (h : s.space.isGuardPage virt = true)
    (isWrite : Bool) : (s.handleDemandFault virt isWrite).1 = false := by
  have heffect := handleDemandFault_effect s virt isWrite
  generalize s.handleDemandFault virt isWrite = r at heffect
  cases heffect with
  | refused => rfl
  | full => rfl
  | failed => rfl
  | mapped hadmits =>
    obtain ⟨hfind, hguard, hprot, -⟩ := hadmits
    rw [AddressSpace.isGuardPage, AddressSpace.findVma, hfind] at h
    simp [hguard, hprot] at h

end Registering

section Segments

theorem area_shape (phdr : Elf64ProgramHeader) :
    phdr.area.start % pageSize = 0 ∧ phdr.area.endAddr % pageSize = 0 ∧
      phdr.area.isGuardPage = false ∧ phdr.area.name ≠ .stack := by
  obtain ⟨hstart, hsize, hguard, hname, -⟩ := area_fields phdr
  refine ⟨?_, ?_, hguard, ?_⟩
  · rw [hstart, Elf64ProgramHeader.pageStart]
    exact Nat.mul_mod_left _ _
  · rw [VmArea.endAddr, hstart, hsize]
    grind
  · rcases hname with hname | hname <;> rw [hname] <;> nofun

variable {phdrs : List Elf64ProgramHeader} {area : VmArea} {virt : Nat}

theorem loadAreas_shape (h : area ∈ loadAreas phdrs []) :
    area.start % pageSize = 0 ∧ area.endAddr % pageSize = 0 ∧ area.isGuardPage = false ∧
      area.name ≠ .stack := by
  rcases mem_loadAreas h with hnil | ⟨phdr, -, -, rfl⟩
  · cases hnil
  · exact area_shape phdr

theorem stackGuard_fields : stackGuard.start = 0x7FFFB000 ∧ stackGuard.size = 0x1000 ∧
    stackGuard.endAddr = 0x7FFFC000 := by
  decide +kernel

theorem stackArea_fields : stackArea.start = 0x7FFFC000 ∧ stackArea.size = 0x4000 ∧
    stackArea.endAddr = 0x80000000 ∧ stackArea.prot = protRead ||| protWrite := by
  decide +kernel

theorem inGuard_iff : InGuard virt ↔ 0x7FFFB000 ≤ virt ∧ virt < 0x7FFFC000 :=
  Iff.rfl

theorem inStack_iff : InStack virt ↔ 0x7FFFC000 ≤ virt ∧ virt < 0x80000000 :=
  Iff.rfl

theorem stackGuard_contains : stackGuard.contains virt = true ↔ InGuard virt := by
  rw [contains_iff, inGuard_iff, stackGuard_fields.1, stackGuard_fields.2.2]

theorem stackArea_contains : stackArea.contains virt = true ↔ InStack virt := by
  rw [contains_iff, inStack_iff, stackArea_fields.1, stackArea_fields.2.2.1]

theorem contains_of_overlaps_guard (h : area ∈ loadAreas phdrs [])
    (hoverlap : area.overlaps stackGuard.start stackGuard.size = true) (hvirt : InGuard virt) :
    area.contains virt = true := by
  obtain ⟨hstart, hend, -, -⟩ := loadAreas_shape h
  obtain ⟨hguard, hsize, -⟩ := stackGuard_fields
  rw [contains_iff]
  rw [inGuard_iff] at hvirt
  simp only [VmArea.overlaps, hguard, hsize, add64, Bool.not_eq_true', Bool.or_eq_false_iff,
    decide_eq_false_iff_not, pageSize] at *
  omega

theorem stackGuard_apart : stackGuard.overlaps stackArea.start stackArea.size = false := by
  decide +kernel

/-- What the segments of a file leave to the stack: no page of them is on the guard page,
only an area without access covers it, and none meets the stack. -/
structure LeavesStack (data : List (BitVec 8)) (phdrs : List Elf64ProgramHeader) : Prop where
  page : ∀ page ∈ loadPages data phdrs, path page ≠ path stackGuard.start
  guard : ∀ area ∈ loadAreas phdrs [],
    area.overlaps stackGuard.start stackGuard.size = true → area.prot = protNone
  stack : ∀ area ∈ loadAreas phdrs [], area.overlaps stackArea.start stackArea.size = false

theorem eq_of_contains {vmas : List VmArea} {other : VmArea} (h : vmas.Pairwise Apart)
    (harea : area ∈ vmas) (hother : other ∈ vmas) (hin : area.contains virt = true)
    (hin' : other.contains virt = true) : area = other := by
  have hfirst := (find?_contains_iff h).mpr ⟨harea, hin⟩
  rw [(find?_contains_iff h).mpr ⟨hother, hin'⟩] at hfirst
  exact (Option.some.inj hfirst).symm

theorem loadAreas_subset_imageAreas (h : area ∈ loadAreas phdrs []) : area ∈ imageAreas phdrs :=
  mem_registerArea_of_mem (mem_registerArea_of_mem h)

theorem reported_iff (hvmas : space.vmas = imageAreas phdrs) :
    (∀ virt, InGuard virt → space.isGuardPage virt = true) ↔
      ∀ area ∈ loadAreas phdrs [],
        area.overlaps stackGuard.start stackGuard.size = true → area.prot = protNone := by
  have hiff : ∀ virt, space.isGuardPage virt = true ↔ ∃ area ∈ imageAreas phdrs,
      area.contains virt = true ∧ (area.isGuardPage = true ∨ area.prot = protNone) := fun virt =>
    hvmas ▸ isGuardPage_iff (hvmas ▸ imageAreas_apart phdrs)
  constructor
  · intro hreported area harea hoverlap
    have hfirst : InGuard stackGuard.start := stackGuard_contains.mp (by decide +kernel)
    obtain ⟨other, hother, hcontains, hguard⟩ := (hiff _).mp (hreported _ hfirst)
    have hsame := eq_of_contains (imageAreas_apart phdrs) (loadAreas_subset_imageAreas harea)
      hother (contains_of_overlaps_guard harea hoverlap hfirst) hcontains
    rw [← hsame, (loadAreas_shape harea).2.2.1] at hguard
    exact hguard.resolve_left Bool.false_ne_true
  · intro hnone virt hvirt
    rw [hiff]
    by_cases hcovered : ∃ area ∈ loadAreas phdrs [],
        area.overlaps stackGuard.start stackGuard.size = true
    · obtain ⟨area, harea, hoverlap⟩ := hcovered
      exact ⟨area, loadAreas_subset_imageAreas harea,
        contains_of_overlaps_guard harea hoverlap hvirt, .inr (hnone area harea hoverlap)⟩
    · have hfree : ∀ area ∈ loadAreas phdrs [],
          area.overlaps stackGuard.start stackGuard.size = false := fun area harea =>
        Bool.eq_false_iff.mpr fun hoverlap => hcovered ⟨area, harea, hoverlap⟩
      have hguard : stackGuard ∈ registerArea (loadAreas phdrs []) stackGuard := by
        rw [registerArea_of_free (by decide) (by decide) hfree]
        exact List.mem_append_right _ (.head _)
      exact ⟨stackGuard, mem_registerArea_of_mem hguard, stackGuard_contains.mpr hvirt, .inl rfl⟩

theorem stack_area_iff :
    (∃ area ∈ imageAreas phdrs, area.name = .stack ∧ area.prot = protRead ||| protWrite ∧
        ∀ virt, InStack virt → area.contains virt = true) ↔
      ∀ area ∈ loadAreas phdrs [], area.overlaps stackArea.start stackArea.size = false := by
  -- the areas before the stack have other names
  have hother : ∀ area ∈ registerArea (loadAreas phdrs []) stackGuard, area.name ≠ .stack := by
    intro area harea
    rcases mem_registerArea harea with hload | rfl
    · exact (loadAreas_shape hload).2.2.2
    · nofun
  constructor
  · rintro ⟨area, harea, hname, -, -⟩ seg hseg
    by_contra hoverlap
    rw [imageAreas, registerArea_of_overlap (mem_registerArea_of_mem hseg)
      (Bool.not_eq_false _ ▸ hoverlap)] at harea
    exact hother area harea hname
  · intro hfree
    obtain ⟨-, -, hname⟩ := stackArea_shape
    refine ⟨stackArea, ?_, hname, stackArea_fields.2.2.2, fun virt => stackArea_contains.mpr⟩
    rw [imageAreas, registerArea_of_free (by decide +kernel) (by decide +kernel)]
    · exact List.mem_append_right _ (.head _)
    · intro area harea
      rcases mem_registerArea harea with hload | rfl
      · exact hfree area hload
      · exact stackGuard_apart

end Segments

section Pages

theorem stack_pages : (stackImages defaultUserStackTop defaultUserStackPages 1).map PageImage.page =
    [0x7FFFF000, 0x7FFFE000, 0x7FFFD000, 0x7FFFC000] := by
  decide +kernel

variable {data : List (BitVec 8)} {phdrs : List Elf64ProgramHeader} {virt : Nat}

theorem mapped_of_inStack (hvirt : InStack virt) :
    ∃ page ∈ mappedPages data phdrs, path virt = path page := by
  rw [inStack_iff] at hvirt
  refine ⟨alignDownPage virt, List.mem_append_right _ ?_, ?_⟩
  · rw [stack_pages]
    grind
  · rw [path_inj (by omega) (by grind), alignDownPage_div]

theorem mapped_guard_iff (hvirt : InGuard virt) :
    (∀ page ∈ mappedPages data phdrs, path virt ≠ path page) ↔
      ∀ page ∈ loadPages data phdrs, path page ≠ path stackGuard.start := by
  have hpath : path virt = path stackGuard.start := by
    rw [inGuard_iff] at hvirt
    rw [stackGuard_fields.1, path_inj (by omega) (by omega)]
    grind
  rw [hpath, mappedPages, List.forall_mem_append, stack_pages, stackGuard_fields.1]
  constructor
  · exact fun h page hpage heq => h.1 page hpage heq.symm
  · refine fun h => ⟨fun page hpage heq => h page hpage heq.symm, fun page hpage heq => ?_⟩
    simp only [List.mem_cons, List.not_mem_nil, or_false] at hpage
    rw [path_inj (by omega) (by omega)] at heq
    grind

end Pages

/-- A loaded program has its stack over a guard page exactly if its segments leave the
two alone. -/
theorem stack_intact_iff {kern : KernelTables} {mem mem' : Mem} {pmm pmm' : Pmm} {kernelCr3 : Nat}
    {data : List (BitVec 8)} {stray : Nat → BitVec 8} {elf : ElfBinary}
    {phdrs : List Elf64ProgramHeader} {loaded : LoadedElf}
    (hroot : KernelRoot mem pmm kern kernelCr3) (hpriv : LoadPrivate kern data)
    (hparse : ElfBinary.parse data = .ok elf) (hphdrs : elf.programHeaders = .ok phdrs)
    (hload : loadElf kernelCr3 data stray mem pmm = (.ok loaded, mem', pmm')) :
    LeavesStack data phdrs ↔ StackIntact ⟨mem', pmm', loaded.space⟩ := by
  obtain ⟨elf', phdrs', space, mem₁, pmm₁, hparse', hphdrs', hnew, hsame, hvmas, -, hlaid⟩ :=
    loadElf_lays hload
  rw [hparse] at hparse'
  cases hparse'
  rw [hphdrs] at hphdrs'
  cases hphdrs'
  obtain ⟨hplaced, hempty⟩ := placed_new hroot hnew
  obtain ⟨tree, howns⟩ := hplaced.owns
  obtain ⟨-, hentries⟩ := layPages_pages
    (imagePages_private stray (hpriv elf phdrs hparse hphdrs)) howns hlaid
  have hmapped : ∀ w, (∃ image ∈ imagePages data stray phdrs, path w = path image.page) ↔
      ∃ page ∈ mappedPages data phdrs, path w = path page := by
    intro w
    rw [← map_page_imagePages data stray]
    simp only [List.mem_map, exists_exists_and_eq_and]
  have hprivate : ∀ virt, InStack virt ∨ InGuard virt → kern.Private virt := by
    intro virt hvirt
    rw [inStack_iff, inGuard_iff] at hvirt
    exact private_of_window ⟨by omega, by omega⟩
  have habsent : ∀ virt, InGuard virt → (pte mem' loaded.space.pml4 virt = none ↔
      ∀ page ∈ loadPages data phdrs, path page ≠ path stackGuard.start) := by
    intro virt hvirt
    rw [hsame.pml4, ← mapped_guard_iff hvirt]
    rcases hentries virt (hprivate virt (.inr hvirt)) with ⟨hin, frame, -, hpte⟩ | ⟨hout, hpte⟩
    · obtain ⟨page, hpage, hpath⟩ := (hmapped virt).mp hin
      rw [hpte]
      exact ⟨nofun, fun h => absurd hpath (h page hpage)⟩
    · refine ⟨fun _ page hpage hpath => ?_, fun _ =>
        hpte.trans (hempty virt (hprivate virt (.inr hvirt)))⟩
      obtain ⟨image, himage, hpath⟩ := (hmapped virt).mpr ⟨page, hpage, hpath⟩
      exact hout image himage hpath
  have hreported := reported_iff hvmas
  have harea :
      (∃ area ∈ loaded.space.vmas, area.name = .stack ∧ area.prot = protRead ||| protWrite ∧
      ∀ virt, InStack virt → area.contains virt = true) ↔ _ := hvmas ▸ stack_area_iff
  constructor
  · rintro ⟨hpage, hguard, hstack⟩
    refine ⟨fun virt hvirt => ?_, harea.mpr hstack, fun virt hvirt =>
      (habsent virt hvirt).mpr hpage,
      hreported.mpr hguard, fun virt hvirt =>
        handleDemandFault_of_guard (hreported.mpr hguard virt hvirt)⟩
    rcases hentries virt (hprivate virt (.inl hvirt)) with ⟨-, frame, -, hpte⟩ | ⟨hout, -⟩
    · refine ⟨makeEntry frame (pageFlags true), ?_, writable_pageEntry frame true⟩
      rw [hsame.pml4]
      exact hpte
    · obtain ⟨image, himage, hpath⟩ := (hmapped virt).mpr (mapped_of_inStack hvirt)
      exact absurd hpath (hout image himage)
  · intro hintact
    have hfirst : InGuard stackGuard.start := stackGuard_contains.mp (by decide +kernel)
    exact ⟨(habsent _ hfirst).mp (hintact.absent _ hfirst), hreported.mp hintact.reported,
      harea.mp hintact.area⟩

/-- The sample program, with its two pages at 1 GiB. -/
theorem stack_intact_sampleProgram :
    ∃ loaded mem' pmm', loadElf 0x1000 sampleProgram (fun _ => 0) hardwareTables (fewFrames 16) =
        (.ok loaded, mem', pmm') ∧ StackIntact ⟨mem', pmm', loaded.space⟩ := by
  have hloads : ∃ loaded mem' pmm', loadElf 0x1000 sampleProgram (fun _ => 0) hardwareTables
      (fewFrames 16) = (.ok loaded, mem', pmm') := loadElf_of_isSome (by decide +kernel)
  obtain ⟨loaded, mem', pmm', hload⟩ := hloads
  obtain ⟨elf, phdrs, -, -, -, hparse, hphdrs, -⟩ := loadElf_lays hload
  refine ⟨loaded, mem', pmm', hload, (stack_intact_iff (hardwareKernel_root _)
    (sampleProgram_private _) hparse hphdrs hload).mp ?_⟩
  rw [sampleProgram_headers hparse hphdrs]
  refine ⟨?_, ?_, ?_⟩
  · decide +kernel
  · decide +kernel
  · decide +kernel

def guardedProgram : List (BitVec 8) :=
  [0x7F, 0x45, 0x4C, 0x46, 2, 1, 1, 0, 0, 0, 0, 0, 0, 0, 0, 0,
    2, 0, 0x3E, 0, 1, 0, 0, 0, 0, 0xB0, 0xFF, 0x7F, 0, 0, 0, 0,
    64, 0, 0, 0, 0, 0, 0, 0, 0, 0, 0, 0, 0, 0, 0, 0,
    0, 0, 0, 0, 64, 0, 56, 0, 1, 0, 0, 0, 0, 0, 0, 0,
    1, 0, 0, 0, 6, 0, 0, 0, 0, 0, 0, 0, 0, 0, 0, 0,
    0, 0xB0, 0xFF, 0x7F, 0, 0, 0, 0, 0, 0xB0, 0xFF, 0x7F, 0, 0, 0, 0,
    0, 0, 0, 0, 0, 0, 0, 0, 0, 0x10, 0, 0, 0, 0, 0, 0,
    0, 0x10, 0, 0, 0, 0, 0, 0]

/-- Its segment takes the place of the guard page, and a fault there maps a page. -/
theorem guard_page_replaced :
    ∃ loaded mem' pmm', loadElf 0x1000 guardedProgram (fun _ => 0) hardwareTables (fewFrames 16) =
        (.ok loaded, mem', pmm') ∧
      loaded.space.isGuardPage 0x7FFFB000 = false ∧
      ((SpaceState.mk mem' pmm' loaded.space).handleDemandFault 0x7FFFB000 true).1 = true ∧
      ¬ StackIntact ⟨mem', pmm', loaded.space⟩ := by
  obtain ⟨loaded, mem', pmm', hload, hguard, hfault⟩ :=
    exists_loaded guardedProgram 16 (P := fun s =>
    s.space.isGuardPage 0x7FFFB000 = false ∧ (s.handleDemandFault 0x7FFFB000 true).1 = true)
    (by decide +kernel)
  refine ⟨loaded, mem', pmm', hload, hguard, hfault, fun hintact => ?_⟩
  have hreported := hintact.reported 0x7FFFB000 (inGuard_iff.mpr ⟨by decide, by decide⟩)
  rw [hguard] at hreported
  cases hreported

end AuraOS.UserSpace
