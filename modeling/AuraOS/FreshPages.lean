import AuraOS.LoadedPages

namespace AuraOS.UserSpace

open PathTrees PhysicalFrames PageTables VirtualAreas Syscalls ElfLoader

variable {page offset vaddr : Nat} {images : List PageImage} {phdrs : List Elf64ProgramHeader}
  {tree : TableTree} {writable : Bool} {elf : ElfBinary}

def visibleByte (mem : Mem) (root virt : Nat) : Option (BitVec 8) :=
  (translate mem root virt).bind fun tr =>
    if tr.user then some (readByte mem tr.frame (virt % pageSize)) else none

section Visible

variable {kern : KernelTables} {root virt : Nat} {s : PageState} {tree : TableTree}

theorem visibleByte_of_private (h : OwnsPages s kern root tree) (hpriv : kern.Private virt) :
    visibleByte s.mem root virt = pageByte s.mem root virt := by
  rw [visibleByte, translate_eq h hpriv, pageByte]
  cases pte s.mem root virt with
  | none => rfl
  | some entry => rfl

theorem visibleByte_of_not_private (h : OwnsPages s kern root tree) (hpriv : ¬ kern.Private virt) :
    visibleByte s.mem root virt = none := by
  rw [visibleByte]
  cases htr : translate s.mem root virt with
  | none => rfl
  | some tr =>
    rw [Option.bind_some, supervisor_of_not_private h hpriv htr]
    rfl

end Visible

section ProgramImage

variable (data : List (BitVec 8)) (stray : Nat → BitVec 8) (phdr : Elf64ProgramHeader)

def segmentByte (virt : Nat) : BitVec 8 :=
  if phdr.pVaddr ≤ virt ∧ virt < phdr.fileDataEnd then
    sourceByte data stray (add64 phdr.pOffset (virt - phdr.pVaddr))
  else 0

/-- The pages that a program asks for, with their contents: the pages with file data
of its segments, and a stack of zeros. -/
def programPages (phdrs : List Elf64ProgramHeader) : List (Nat × (Nat → BitVec 8)) :=
  ((phdrs.filter (!·.skipped)).flatMap fun phdr =>
    (pagesUp phdr.pageStart phdr.eagerPages).map fun page =>
      (page, fun offset => segmentByte data stray phdr (page + offset))) ++
  (stackImages defaultUserStackTop defaultUserStackPages 1).map fun image =>
    (image.page, fun _ => 0)

def shownByte : List (Nat × (Nat → BitVec 8)) → Nat → Option (BitVec 8)
  | [], _ => none
  | (page, contents) :: rest, virt =>
    (shownByte rest virt).or
      (if path virt = path page then some (contents (virt % pageSize)) else none)

variable {data stray phdr}

theorem segmentImage_fits (h : phdr.pVaddr < page + pageSize) :
    (segmentImage data stray phdr page).Fits := by
  have hwrap : add64 page pageSize ≤ page + pageSize := Nat.mod_le _ _
  simp only [PageImage.Fits, segmentImage, List.length_map, List.length_range]
  omega

theorem segmentImage_byte (hvaddr : phdr.pVaddr < page + pageSize) (htop : page + pageSize < 2 ^ 64)
    (hlt : offset < pageSize) :
    (segmentImage data stray phdr page).byte offset =
      segmentByte data stray phdr (page + offset) := by
  have hend : add64 page pageSize = page + pageSize := Nat.mod_eq_of_lt htop
  simp only [PageImage.byte, segmentImage, segmentByte, hend, List.getElem?_map]
  by_cases hin : phdr.pVaddr ≤ page + offset ∧ page + offset < phdr.fileDataEnd
  · have hindex : offset - (max page phdr.pVaddr - page) <
        min (page + pageSize) phdr.fileDataEnd - max page phdr.pVaddr := by omega
    have hsource : add64 (add64 phdr.pOffset (max page phdr.pVaddr - phdr.pVaddr))
        (offset - (max page phdr.pVaddr - page)) =
          add64 phdr.pOffset (page + offset - phdr.pVaddr) := by
      grind
    rw [if_pos hin, if_pos (by omega), List.getElem?_range hindex, Option.map_some,
      Option.getD_some, hsource]
  · rw [if_neg hin]
    split
    · rw [List.getElem?_eq_none (by rw [List.length_range]; omega)]
      rfl
    · rfl

theorem imageByte_congr {pages : List (Nat × (Nat → BitVec 8))}
    (h : List.Forall₂ (fun image page => image.page = page.1 ∧
      ∀ offset < pageSize, image.byte offset = page.2 offset) images pages) (virt : Nat) :
    imageByte images virt = shownByte pages virt := by
  induction h with
  | nil => rfl
  | @cons image page images pages hfirst _ ih =>
    rw [imageByte, shownByte, ih, hfirst.1, hfirst.2 _ (Nat.mod_lt _ (by decide))]

theorem imageByte_imagePages
    (hvalid : ∀ phdr ∈ phdrs, phdr.skipped = false → phdr.invalid data = false) (virt : Nat) :
    imageByte (imagePages data stray phdrs) virt =
      shownByte (programPages data stray phdrs) virt := by
  apply imageByte_congr
  apply List.rel_append
  · induction phdrs with
    | nil => exact .nil
    | cons phdr rest ih =>
      have hrest := ih fun phdr hphdr => hvalid phdr (.tail _ hphdr)
      rw [loadImages, List.filter_cons]
      cases hskipped : phdr.skipped with
      | true => exact hrest
      | false =>
        rw [if_neg (by simp), hvalid phdr List.mem_cons_self hskipped]
        refine List.rel_append ?_ hrest
        rw [List.forall₂_map_left_iff, List.forall₂_map_right_iff, List.forall₂_same]
        intro page hpage
        obtain ⟨-, hvaddr, htop⟩ := eager_page hpage
        exact ⟨rfl, fun offset hlt => segmentImage_byte hvaddr htop hlt⟩
  · rw [List.forall₂_map_right_iff, List.forall₂_same]
    intro image himage
    obtain ⟨j, -, -, rfl⟩ := mem_stackImages himage
    refine ⟨rfl, fun offset _ => ?_⟩
    rfl

theorem imagePages_fits : ∀ image ∈ imagePages data stray phdrs, image.Fits := by
  intro image himage
  rcases imagePages_cases himage with ⟨phdr, hpage, heq, -⟩ | ⟨j, -, -, rfl⟩
  · rw [heq]
    exact segmentImage_fits (eager_page hpage).2.1
  · exact Nat.zero_le pageSize

theorem imageByte_eq_none {virt : Nat} (h : ∀ image ∈ images, path virt ≠ path image.page) :
    imageByte images virt = none := by
  induction images with
  | nil => rfl
  | cons image rest ih =>
    rw [imageByte, ih fun i hi => h i (.tail _ hi), if_neg (h image (.head _))]
    rfl

end ProgramImage

section Clear

variable {kern : KernelTables} {mem after : Mem} {root virt : Nat}

theorem PageSet.clear {phys : Nat} {flags : BitVec 64} (hphys : IsFrame phys)
    (h : PageSet mem (mem.zeroFrame phys) after kern root virt (makeEntry phys flags)) {w : Nat}
    (hw : kern.Private w) (hclear : path w = path virt ∨ pageByte mem root w = some 0) :
    pageByte after root w = some 0 := by
  have hentry := h.entries w hw
  have hcontents := h.contents w hw
  rw [pageByte]
  split at hentry
  · have hzero := hcontents _ hentry
    rw [entryAddr_makeEntry hphys] at hzero
    rw [hentry, Option.map_some, entryAddr_makeEntry hphys, readByte_congr hzero, readByte]
    simp [Mem.zeroFrame]
  · rename_i hpath
    have hbyte := hclear.resolve_left hpath
    rw [pageByte, ← hentry] at hbyte
    obtain ⟨entry, he, hzero⟩ := Option.map_eq_some_iff.mp hbyte
    have hsame := hcontents entry he
    rw [he, Option.map_some, readByte_congr hsame, readByte, Mem.zeroFrame]
    split
    · simp
    · exact congrArg some hzero

theorem allocateAndMapPage_clear_iff {s s₁ : PageState} {frame : Nat}
    (h : OwnsPages s kern root tree) (hpriv : kern.Private virt)
    (hmap : s.allocateAndMapPage root virt writable = (some frame, s₁)) :
    (∀ offset < pageSize, readByte s₁.mem frame offset = 0) ↔ s.NextClear := by
  obtain ⟨pmm, halloc, hmapped⟩ := allocateAndMapPage_some hmap
  have hmem := writeByte_of_ne s.mem frame 0 0
  obtain ⟨tree', tables, hattempt⟩ := mapUserPage_spec h hpriv halloc hmem writable
  have hset := (mapUserPage_pages h hpriv halloc hmem writable).1 (congrArg Prod.fst hmapped)
  simp only [hmapped] at hattempt hset
  have hframe : IsFrame frame := hattempt.owns.isFrame ⟨_, (hattempt.mapped rfl).1⟩
  have hsame := hset.contents virt hpriv _ ((hset.entries virt hpriv).trans (if_pos rfl))
  rw [entryAddr_makeEntry hframe] at hsame
  rw [← frame_clear_iff]
  simp only [hsame]
  rw [writeByte_clear_iff]
  constructor
  · intro hclear phys pmm' halloc'
    rw [halloc] at halloc'
    cases halloc'
    exact hclear
  · exact fun hclear => hclear frame pmm halloc

theorem handleDemandFault_clear {s s' : SpaceState} {faultAddr : Nat} {isWrite : Bool}
    (h : OwnsPages s.pages kern s.space.pml4 tree) (hpriv : kern.Private faultAddr)
    (hfault : s.handleDemandFault faultAddr isWrite = (true, s')) {w : Nat}
    (hw : path w = path faultAddr) : pageByte s'.mem s'.space.pml4 w = some 0 := by
  have hpath : path (alignDownPage faultAddr) = path faultAddr :=
    path_congr (alignDownPage_div faultAddr)
  have hsame := handleDemandFault_sameSpace s faultAddr isWrite
  have hpages := handleDemandFault_pages h (private_of_path hpath hpriv) isWrite
  simp only [hfault] at hsame hpages
  rcases hpages with ⟨hfalse, -⟩ | ⟨-, idx, area, phys, hres⟩
  · cases hfalse
  · rw [hsame.pml4]
    exact hres.page.clear hres.frame (private_of_path hw hpriv) (.inl (hw.trans hpath.symm))

theorem populate_clear {pages : Nat} {area area' : VmArea} {s s' : SpaceState}
    (h : OwnsPages s.pages kern s.space.pml4 tree)
    (hpriv : ∀ i < pages, kern.Private (add64 vaddr (offset + i * pageSize)))
    (hdone : SpaceState.populate vaddr writable pages offset area s = (some area', s')) {w : Nat}
    (hw : kern.Private w)
    (hclear : (∃ i < pages, path w = path (add64 vaddr (offset + i * pageSize))) ∨
      pageByte s.mem s.space.pml4 w = some 0) : pageByte s'.mem s.space.pml4 w = some 0 := by
  induction pages generalizing offset area s tree with
  | zero =>
    cases hdone
    refine hclear.resolve_left ?_
    rintro ⟨i, hi, -⟩
    cases hi
  | succ pages ih =>
    have hfirst : kern.Private (add64 vaddr offset) := by
      have hpage := hpriv 0 (Nat.succ_pos pages)
      rwa [Nat.zero_mul, Nat.add_zero] at hpage
    have hlater : ∀ i, offset + (i + 1) * pageSize = offset + pageSize + i * pageSize := by
      intro i
      grind
    have hround := populate_round vaddr writable pages offset area s
    rw [hdone] at hround
    generalize hresult : (some area', s') = result at hround
    cases hround with
    | full => cases hresult
    | failed => cases hresult
    | @mapped phys mapped hmap =>
      obtain ⟨hphys, hset⟩ := (mapZeroed_pages h hfirst hmap).1 rfl
      obtain ⟨tree', tables, hmap⟩ := populate_attempt h hfirst hmap
      refine ih (s := s.setPages mapped) hmap.owns (fun i hi => ?_) hresult.symm ?_
      · rw [← hlater]
        exact hpriv (i + 1) (Nat.succ_lt_succ hi)
      · -- the page is one of the later ones, the first one, or clear before
        rcases hclear with ⟨_ | i, hi, hpath⟩ | hbyte
        · rw [Nat.zero_mul, Nat.add_zero] at hpath
          exact .inr (hset.clear hphys hw (.inl hpath))
        · rw [hlater] at hpath
          exact .inl ⟨i, Nat.lt_of_succ_lt_succ hi, hpath⟩
        · exact .inr (hset.clear hphys hw (.inr hbyte))

theorem mmap_clear {s s' : SpaceState} {addrHint : Option Nat} {length : Nat}
    {prot flags : BitVec 32} (h : OwnsPages s.pages kern s.space.pml4 tree)
    (hpopulate : flags &&& mapPopulate ≠ 0)
    (hmmap : s.mmap addrHint length prot flags = (.ok vaddr, s'))
    (hpriv : ∀ i < alignUpPage length / pageSize, kern.Private (add64 vaddr (i * pageSize)))
    {w i : Nat} (hi : i < alignUpPage length / pageSize)
    (hw : path w = path (add64 vaddr (i * pageSize))) :
    pageByte s'.mem s'.space.pml4 w = some 0 := by
  have hsame := mmap_sameSpace s addrHint length prot flags
  simp only [hmmap] at hsame
  rw [hsame.pml4]
  simp only [SpaceState.mmap] at hmmap
  split at hmmap
  · cases hmmap
  · split at hmmap
    · cases hmmap
    · rename_i chosen space hchoose
      have hspace := chooseRange_same hchoose
      generalize space.mmapBumpPtr = bump at hspace
      subst hspace
      split at hmmap
      · cases hmmap
      · rename_i area after hdone
        cases hmmap
        refine populate_clear (s := { s with space := { s.space with mmapBumpPtr := bump } }) h
          ?_ hdone (private_of_path hw (hpriv i hi)) (.inl ⟨i, hi, ?_⟩)
        · intro j hj
          rw [Nat.zero_add]
          exact hpriv j hj
        · rw [Nat.zero_add]
          exact hw

end Clear

section Loading

variable {kern : KernelTables} {mem mem' : Mem} {pmm pmm' : Pmm} {kernelCr3 : Nat}
  {data : List (BitVec 8)} {stray : Nat → BitVec 8}

/-- Every frame that `load_elf` takes for a page is clear, up to its first byte. -/
def LoadClear (kernelCr3 : Nat) (data : List (BitVec 8)) (stray : Nat → BitVec 8) (mem : Mem)
    (pmm : Pmm) : Prop :=
  ∀ elf phdrs space mem₁ pmm₁, ElfBinary.parse data = .ok elf → elf.programHeaders = .ok phdrs →
    AddressSpace.new kernelCr3 mem pmm = (some space, mem₁, pmm₁) →
      LayClear space.pml4 (imagePages data stray phdrs) ⟨mem₁, pmm₁, space.allocatedFrames⟩

def LoadPrivate (kern : KernelTables) (data : List (BitVec 8)) : Prop :=
  ∀ elf phdrs, ElfBinary.parse data = .ok elf → elf.programHeaders = .ok phdrs →
    ∀ page ∈ loadPages data phdrs, kern.Private page

def ReadsFile (phdr : Elf64ProgramHeader) : Prop :=
  0 < phdr.eagerPages → phdr.pVaddr + phdr.pFilesz < 2 ^ 64 → phdr.pOffset + phdr.pFilesz < 2 ^ 64

def LoadReadsFile (data : List (BitVec 8)) : Prop :=
  ∀ elf phdrs, ElfBinary.parse data = .ok elf → elf.programHeaders = .ok phdrs →
    ∀ phdr ∈ phdrs, phdr.skipped = false → ReadsFile phdr

theorem loadElf_shows (hroot : KernelRoot mem pmm kern kernelCr3) (hpriv : LoadPrivate kern data)
    (hclear : LoadClear kernelCr3 data stray mem pmm) {loaded : LoadedElf}
    (hload : loadElf kernelCr3 data stray mem pmm = (.ok loaded, mem', pmm')) :
    ∃ elf phdrs, ElfBinary.parse data = .ok elf ∧ elf.programHeaders = .ok phdrs ∧
      (∀ phdr ∈ phdrs, phdr.skipped = false → phdr.invalid data = false) ∧
      ∀ virt, visibleByte mem' loaded.space.pml4 virt =
        shownByte (programPages data stray phdrs) virt := by
  obtain ⟨elf, phdrs, space, mem₁, pmm₁, hparse, hphdrs, hnew, hsame, -, hvalid, hlaid⟩ :=
    loadElf_lays hload
  refine ⟨elf, phdrs, hparse, hphdrs, hvalid, fun virt => ?_⟩
  obtain ⟨⟨⟨tree, howns⟩, -⟩, hempty⟩ := placed_new hroot hnew
  have himages := imagePages_private stray (hpriv elf phdrs hparse hphdrs)
  obtain ⟨⟨tree', howns'⟩, -⟩ := layPages_pages himages howns hlaid
  rw [hsame.pml4, ← imageByte_imagePages hvalid]
  by_cases hvirt : kern.Private virt
  · have hbytes := layPages_bytes himages imagePages_fits howns
      (hclear elf phdrs space mem₁ pmm₁ hparse hphdrs hnew) hlaid hvirt
    have hnone : pageByte mem₁ space.pml4 virt = none := by
      rw [pageByte, hempty virt hvirt]
      rfl
    simp only [SpaceState.pages, hnone, Option.or_none] at hbytes
    rw [← hbytes]
    exact visibleByte_of_private howns' hvirt
  · rw [imageByte_eq_none fun image himage hpath =>
      hvirt (private_of_path hpath (himages image himage))]
    exact visibleByte_of_not_private howns' hvirt

theorem readLe_lt (data : List (BitVec 8)) (offset n : Nat) : readLe data offset n < 256 ^ n := by
  induction n generalizing offset with
  | zero => exact Nat.one_pos
  | succ n ih =>
    have hrest := ih (offset + 1)
    rw [readLe, Nat.pow_succ]
    omega

theorem programHeaders_lt (h : elf.programHeaders = .ok phdrs) :
    ∀ phdr ∈ phdrs, phdr.pVaddr < 2 ^ 64 ∧ phdr.pFilesz < 2 ^ 64 := by
  intro phdr hphdr
  simp only [ElfBinary.programHeaders] at h
  repeat' split at h
  all_goals cases h
  · cases hphdr
  · obtain ⟨i, -, rfl⟩ := List.mem_map.mp hphdr
    exact ⟨readLe_lt _ _ 8, readLe_lt _ _ 8⟩

theorem segmentByte_stray {phdr : Elf64ProgramHeader} (hvaddr : phdr.pVaddr < 2 ^ 64)
    (hfilesz : phdr.pFilesz < 2 ^ 64) (hvalid : phdr.invalid data = false)
    (hreads : ReadsFile phdr) (heager : 0 < phdr.eagerPages) (stray' : Nat → BitVec 8)
    (virt : Nat) : segmentByte data stray phdr virt = segmentByte data stray' phdr virt := by
  have hnowrap := hreads heager
  simp only [Elf64ProgramHeader.invalid, Bool.or_eq_false_iff, decide_eq_false_iff_not,
    Nat.not_lt] at hvalid
  rw [segmentByte, segmentByte]
  split
  · rename_i hin
    have hsource : add64 phdr.pOffset (virt - phdr.pVaddr) < data.length := by
      simp only [Elf64ProgramHeader.fileDataEnd, add64] at *
      omega
    rw [sourceByte, sourceByte, if_pos hsource, if_pos hsource]
  · rfl

theorem programPages_stray (hlt : ∀ phdr ∈ phdrs, phdr.pVaddr < 2 ^ 64 ∧ phdr.pFilesz < 2 ^ 64)
    (hvalid : ∀ phdr ∈ phdrs, phdr.skipped = false → phdr.invalid data = false)
    (hreads : ∀ phdr ∈ phdrs, phdr.skipped = false → ReadsFile phdr) (stray' : Nat → BitVec 8) :
    programPages data stray phdrs = programPages data stray' phdrs := by
  rw [programPages, programPages]
  congr 1
  refine List.flatMap_congr fun phdr hphdr => List.map_congr_left fun page hpage => ?_
  obtain ⟨hmem, hskipped⟩ := List.mem_filter.mp hphdr
  have hskipped : phdr.skipped = false := by simpa using hskipped
  have heager : 0 < phdr.eagerPages := by
    obtain ⟨i, hi, -⟩ := mem_pagesUp.mp hpage
    omega
  have hbyte : ∀ virt, segmentByte data stray phdr virt = segmentByte data stray' phdr virt :=
    segmentByte_stray (hlt phdr hmem).1 (hlt phdr hmem).2 (hvalid phdr hmem hskipped)
      (hreads phdr hmem hskipped) heager stray'
  rw [Prod.mk.injEq]
  exact ⟨rfl, funext fun offset => hbyte (page + offset)⟩

end Loading

section FreeFrames

variable {kern : KernelTables} {root : Nat} {s : PageState} {tree : TableTree}

def FreeClear (mem : Mem) (pmm : Pmm) : Prop :=
  ∀ a, pmm.FreeAt a → ∀ i, mem a i = 0

theorem Grown.freeClear {s' : PageState} {added : List Nat} (h : Grown s s' tree added)
    (hfree : ∀ a, tree.Has a → ¬ s.pmm.FreeAt a) (hclear : FreeClear s.mem s.pmm) :
    FreeClear s'.mem s'.pmm := by
  intro a ha i
  obtain ⟨hwas, hnew⟩ := (h.free a).mp ha
  rw [h.mem a (fun hhas => hfree a hhas hwas) hnew]
  exact hclear a hwas i

theorem FreeClear.nextClear (h : FreeClear s.mem s.pmm) : s.NextClear := by
  intro phys pmm halloc offset _ hlt
  exact (frame_clear_iff s.mem phys).mp (h phys (allocFrame_spec halloc).free) offset hlt

theorem FreeClear.layClear (hpriv : ∀ image ∈ images, kern.Private image.page)
    (h : OwnsPages s kern root tree) (hclear : FreeClear s.mem s.pmm) : LayClear root images s := by
  induction images generalizing s tree with
  | nil => trivial
  | cons image rest ih =>
    refine ⟨hclear.nextClear, fun frame s₁ hmap => ?_⟩
    have hfirst := hpriv image (.head _)
    obtain ⟨tree₁, tables, hattempt, h₁⟩ := layPage_attempt h hfirst hmap
    refine ih (fun i hi => hpriv i (.tail _ hi)) h₁ ?_
    have hclear₁ := hattempt.grown.freeClear (fun a ha => h.not_free ha) hclear
    intro a ha i
    have hne : a ≠ frame := by
      rintro rfl
      exact ((hattempt.grown.free a).mp ha).2 (.head _)
    exact (copyBytes_of_ne hne _ _ s₁.mem i).trans (hclear₁ a ha i)

theorem FreeClear.loadClear {mem : Mem} {pmm : Pmm} {kernelCr3 : Nat} {data : List (BitVec 8)}
    (hroot : KernelRoot mem pmm kern kernelCr3) (hpriv : LoadPrivate kern data)
    (hclear : FreeClear mem pmm) (stray : Nat → BitVec 8) :
    LoadClear kernelCr3 data stray mem pmm := by
  intro elf phdrs space mem₁ pmm₁ hparse hphdrs hnew
  rcases new_cases hroot with ⟨_, _, _, heq, -⟩ | ⟨space', mem', pmm', tree, heq, hcreated⟩
  · rw [heq] at hnew
    cases hnew
  · rw [heq] at hnew
    cases hnew
    refine FreeClear.layClear
      (imagePages_private stray (hpriv elf phdrs hparse hphdrs)) hcreated.owns ?_
    refine hcreated.grown.freeClear ?_ hclear
    rintro a ⟨q, hq⟩
    cases hq

end FreeFrames

/-- New user pages.  A page of a resolved demand fault and the pages of a successful
`MAP_POPULATE` show zeros, whatever the memory held.  `allocate_and_map_page` hands out
a clear frame exactly if the frame was clear behind its first byte.  Where that holds
for every page of a program, the program's space shows the file data over zeros and
nothing else, and two memories show the same. -/
theorem fresh_pages_clear (kern : KernelTables) (kernelCr3 : Nat) :
    (∀ (s s₁ : PageState) (tree : TableTree) (root virt frame : Nat) (writable : Bool),
      OwnsPages s kern root tree → kern.Private virt →
      s.allocateAndMapPage root virt writable = (some frame, s₁) →
        ((∀ offset < pageSize, readByte s₁.mem frame offset = 0) ↔ s.NextClear)) ∧
    (∀ (s s' : SpaceState) (tree : TableTree) (faultAddr : Nat) (isWrite : Bool),
      OwnsPages s.pages kern s.space.pml4 tree → kern.Private faultAddr →
      s.handleDemandFault faultAddr isWrite = (true, s') →
        ∀ w, path w = path faultAddr → pageByte s'.mem s'.space.pml4 w = some 0) ∧
    (∀ (s s' : SpaceState) (tree : TableTree) (addrHint : Option Nat) (length vaddr : Nat)
        (prot flags : BitVec 32),
      OwnsPages s.pages kern s.space.pml4 tree → flags &&& mapPopulate ≠ 0 →
      s.mmap addrHint length prot flags = (.ok vaddr, s') →
      (∀ i < alignUpPage length / pageSize, kern.Private (add64 vaddr (i * pageSize))) →
        ∀ i < alignUpPage length / pageSize, ∀ w, path w = path (add64 vaddr (i * pageSize)) →
          pageByte s'.mem s'.space.pml4 w = some 0) ∧
    (∀ (mem mem' : Mem) (pmm pmm' : Pmm) (data : List (BitVec 8)) (stray : Nat → BitVec 8)
        (loaded : LoadedElf),
      KernelRoot mem pmm kern kernelCr3 → LoadPrivate kern data →
      LoadClear kernelCr3 data stray mem pmm →
      loadElf kernelCr3 data stray mem pmm = (.ok loaded, mem', pmm') →
        ∃ elf phdrs, ElfBinary.parse data = .ok elf ∧ elf.programHeaders = .ok phdrs ∧
          ∀ virt, visibleByte mem' loaded.space.pml4 virt =
            shownByte (programPages data stray phdrs) virt) ∧
    (∀ (mem₁ mem₁' mem₂ mem₂' : Mem) (pmm₁ pmm₁' pmm₂ pmm₂' : Pmm) (data : List (BitVec 8))
        (stray₁ stray₂ : Nat → BitVec 8) (loaded₁ loaded₂ : LoadedElf),
      KernelRoot mem₁ pmm₁ kern kernelCr3 → KernelRoot mem₂ pmm₂ kern kernelCr3 →
      LoadPrivate kern data → LoadReadsFile data →
      LoadClear kernelCr3 data stray₁ mem₁ pmm₁ → LoadClear kernelCr3 data stray₂ mem₂ pmm₂ →
      loadElf kernelCr3 data stray₁ mem₁ pmm₁ = (.ok loaded₁, mem₁', pmm₁') →
      loadElf kernelCr3 data stray₂ mem₂ pmm₂ = (.ok loaded₂, mem₂', pmm₂') →
        ∀ virt, visibleByte mem₁' loaded₁.space.pml4 virt =
          visibleByte mem₂' loaded₂.space.pml4 virt) := by
  refine ⟨?_, ?_, ?_, ?_, ?_⟩
  · intro s s₁ tree root virt frame writable h hpriv hmap
    exact allocateAndMapPage_clear_iff h hpriv hmap
  · intro s s' tree faultAddr isWrite h hpriv hfault w hw
    exact handleDemandFault_clear h hpriv hfault hw
  · intro s s' tree addrHint length vaddr prot flags h hpopulate hmmap hpriv i hi w hw
    exact mmap_clear h hpopulate hmmap hpriv hi hw
  · intro mem mem' pmm pmm' data stray loaded hroot hpriv hclear hload
    obtain ⟨elf, phdrs, hparse, hphdrs, -, hshows⟩ := loadElf_shows hroot hpriv hclear hload
    exact ⟨elf, phdrs, hparse, hphdrs, hshows⟩
  · intro mem₁ mem₁' mem₂ mem₂' pmm₁ pmm₁' pmm₂ pmm₂' data stray₁ stray₂ loaded₁ loaded₂ hroot₁
      hroot₂ hpriv hreads hclear₁ hclear₂ hload₁ hload₂ virt
    obtain ⟨elf, phdrs, hparse, hphdrs, hvalid, hshows₁⟩ :=
      loadElf_shows hroot₁ hpriv hclear₁ hload₁
    obtain ⟨elf', phdrs', hparse', hphdrs', -, hshows₂⟩ := loadElf_shows hroot₂ hpriv hclear₂ hload₂
    rw [hparse] at hparse'
    cases hparse'
    rw [hphdrs] at hphdrs'
    cases hphdrs'
    rw [hshows₁, hshows₂, programPages_stray (programHeaders_lt hphdrs) hvalid
      (hreads elf phdrs hparse hphdrs) stray₂]

section Sample

def staleTables : Mem := fun table index =>
  if table < pmmBase then hardwareTables table index else BitVec.allOnes 64

/-- Loading the sample program, on frames of which nothing is known. -/
theorem stale_byte_shown :
    let r := loadElf 0x1000 sampleProgram (fun _ => 0) staleTables (fewFrames 16)
    r.1.toOption.isSome = true ∧
      (r.1.toOption.bind fun loaded => visibleByte r.2.1 loaded.space.pml4 0x40000100) = some 0xFF ∧
      (r.1.toOption.bind fun loaded => visibleByte r.2.1 loaded.space.pml4 0x7FFFF001) =
        some 0xFF := by
  decide +kernel

theorem freeClear_hardwareTables (pmm : Pmm) : FreeClear hardwareTables pmm := by
  rintro a ⟨frame, hframe, rfl, -⟩ i
  have hlow := (frameAddr_window hframe).1.1
  simp only [pmmBase] at hlow
  simp only [hardwareTables]
  rw [if_neg (by omega), if_neg (by omega), if_neg (by omega)]

theorem sampleProgram_headers (hparse : ElfBinary.parse sampleProgram = .ok elf)
    (hphdrs : elf.programHeaders = .ok phdrs) :
    phdrs = [⟨1, 5, 120, 0x40000010, 0x40000010, 4, 0x2000, 0x1000⟩] :=
  programHeaders_unique (by decide +kernel) hparse hphdrs

theorem sampleProgram_private (kern : KernelTables) : LoadPrivate kern sampleProgram := by
  intro elf phdrs hparse hphdrs page hpage
  rw [sampleProgram_headers hparse hphdrs] at hpage
  have hpages : loadPages sampleProgram
      [⟨1, 5, 120, 0x40000010, 0x40000010, 4, 0x2000, 0x1000⟩] = [0x40000000] := by
    decide +kernel
  rw [hpages, List.mem_singleton] at hpage
  subst hpage
  exact private_of_window ⟨by decide, by decide⟩

theorem sampleProgram_readsFile : LoadReadsFile sampleProgram := by
  intro elf phdrs hparse hphdrs phdr hphdr _ _ _
  rw [sampleProgram_headers hparse hphdrs, List.mem_singleton] at hphdr
  subst hphdr
  decide

/-- The sample program, loaded on clear frames at two places. -/
theorem sampleProgram_shown :
    ∃ loaded₁ mem₁ pmm₁ loaded₂ mem₂ pmm₂ elf phdrs,
      loadElf 0x1000 sampleProgram (fun _ => 0) hardwareTables (fewFrames 16) =
        (.ok loaded₁, mem₁, pmm₁) ∧
      loadElf 0x1000 sampleProgram (fun _ => 0) hardwareTables (fewFrames 32) =
        (.ok loaded₂, mem₂, pmm₂) ∧
      ElfBinary.parse sampleProgram = .ok elf ∧ elf.programHeaders = .ok phdrs ∧
      (∀ virt, visibleByte mem₁ loaded₁.space.pml4 virt =
        shownByte (programPages sampleProgram (fun _ => 0) phdrs) virt) ∧
      ∀ virt, visibleByte mem₁ loaded₁.space.pml4 virt =
        visibleByte mem₂ loaded₂.space.pml4 virt := by
  have hloads : ∀ n, n = 16 ∨ n = 32 → ∃ loaded mem' pmm',
      loadElf 0x1000 sampleProgram (fun _ => 0) hardwareTables (fewFrames n) =
        (.ok loaded, mem', pmm') := by
    rintro n (rfl | rfl) <;> exact loadElf_of_isSome (by decide +kernel)
  obtain ⟨loaded₁, mem₁, pmm₁, hload₁⟩ := hloads 16 (.inl rfl)
  obtain ⟨loaded₂, mem₂, pmm₂, hload₂⟩ := hloads 32 (.inr rfl)
  have hroot : ∀ n, KernelRoot hardwareTables (fewFrames n) hardwareKernel 0x1000 :=
    fun n => hardwareKernel_root (fewFrames n)
  have hclear : ∀ n, LoadClear 0x1000 sampleProgram (fun _ => 0) hardwareTables (fewFrames n) :=
    fun n => (freeClear_hardwareTables (fewFrames n)).loadClear (hroot n)
      (sampleProgram_private hardwareKernel) _
  obtain ⟨-, -, -, hshows, hsame⟩ := fresh_pages_clear hardwareKernel 0x1000
  obtain ⟨elf, phdrs, hparse, hphdrs, hbytes⟩ := hshows _ _ _ _ _ _ _ (hroot 16)
    (sampleProgram_private hardwareKernel) (hclear 16) hload₁
  refine ⟨loaded₁, mem₁, pmm₁, loaded₂, mem₂, pmm₂, elf, phdrs, hload₁, hload₂, hparse, hphdrs,
    hbytes, ?_⟩
  exact hsame _ _ _ _ _ _ _ _ _ _ _ _ _ (hroot 16) (hroot 32)
    (sampleProgram_private hardwareKernel) sampleProgram_readsFile (hclear 16) (hclear 32)
    hload₁ hload₂

end Sample

end AuraOS.UserSpace
