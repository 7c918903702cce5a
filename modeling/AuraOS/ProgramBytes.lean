import AuraOS.LoadDemands

namespace AuraOS.UserSpace

open PathTrees PhysicalFrames PageTables VirtualAreas Syscalls ElfLoader

def lastImage : List PageImage → Nat → Option PageImage
  | [], _ => none
  | image :: rest, virt =>
    (lastImage rest virt).or (if path virt = path image.page then some image else none)

def PageImage.Supplies (image : PageImage) (offset : Nat) (byte : BitVec 8) : Prop :=
  if image.offset ≤ offset ∧ offset < image.offset + image.bytes.length then
    image.bytes[offset - image.offset]? = some byte
  else offset = 0 ∧ byte = 0

section Images

variable {image : PageImage} {images rest : List PageImage} {virt offset : Nat} {byte : BitVec 8}

theorem supplies_iff_over :
    image.Supplies offset byte ↔ ∀ stale, image.over stale offset = byte := by
  rw [PageImage.Supplies]
  split
  · rename_i hin
    have hlt : offset - image.offset < image.bytes.length := by omega
    simp only [PageImage.over, if_pos hin.1, List.getElem?_eq_getElem hlt, Option.getD_some,
      Option.some.injEq, forall_const]
  · rename_i hout
    have hover : ∀ stale, image.over stale offset = if offset = 0 then 0 else stale offset := by
      intro stale
      simp only [PageImage.over]
      split
      · rw [List.getElem?_eq_none (by omega), Option.getD_none]
      · rfl
    simp only [hover]
    constructor
    · rintro ⟨rfl, rfl⟩ stale
      rfl
    · intro h
      by_cases hzero : offset = 0
      · simp only [if_pos hzero] at h
        exact ⟨hzero, (h fun _ => 0).symm⟩
      · simp only [if_neg hzero] at h
        have hdiffer := (h fun _ => 0).trans (h fun _ => 1).symm
        exact absurd hdiffer (by decide)

theorem over_congr {stale stale' : Nat → BitVec 8} (h : stale offset = stale' offset) :
    image.over stale offset = image.over stale' offset := by
  simp only [PageImage.over, h]

theorem lastImage_append (virt : Nat) :
    lastImage (images ++ rest) virt = (lastImage rest virt).or (lastImage images virt) := by
  induction images with
  | nil => simp [lastImage]
  | cons image images ih => rw [List.cons_append, lastImage, ih, lastImage, Option.or_assoc]

theorem lastImage_eq_none_iff :
    lastImage images virt = none ↔ ∀ image ∈ images, path virt ≠ path image.page := by
  induction images with
  | nil => simp [lastImage]
  | cons image images ih =>
    rw [lastImage, Option.or_eq_none_iff, ih, List.forall_mem_cons, and_comm]
    simp

theorem mem_of_lastImage (h : lastImage images virt = some image) :
    image ∈ images ∧ path virt = path image.page := by
  induction images with
  | nil => cases h
  | cons first images ih =>
    rw [lastImage, Option.or_eq_some_iff] at h
    rcases h with h | ⟨-, h⟩
    · obtain ⟨hmem, hpath⟩ := ih h
      exact ⟨.tail _ hmem, hpath⟩
    · split at h
      · rename_i hpath
        cases h
        exact ⟨.head _, hpath⟩
      · cases h

end Images

section Laying

variable {kern : KernelTables} {root : Nat} {tree : TableTree}

/-- A page shows the last image laid for it over what its frame held; the frame was
free when the laying began, and its contents had not changed until then. -/
theorem layPages_last {images : List PageImage} {s s' : PageState}
    (hpriv : ∀ image ∈ images, kern.Private image.page) (hfits : ∀ image ∈ images, image.Fits)
    (h : OwnsPages s kern root tree) (hlaid : layPages root images s = (true, s')) {w : Nat}
    (hw : kern.Private w) :
    (lastImage images w = none ∧ pageByte s'.mem root w = pageByte s.mem root w) ∨
      ∃ image frame, lastImage images w = some image ∧ s.pmm.FreeAt frame ∧
        pageByte s'.mem root w = some (image.over (readByte s.mem frame) (w % pageSize)) := by
  induction images generalizing s tree with
  | nil =>
    cases hlaid
    exact .inl ⟨rfl, rfl⟩
  | cons image rest ih =>
    have hfirst := hpriv image (.head _)
    obtain ⟨frame, s₁, hmap, hlaid⟩ := layPages_cons hlaid
    obtain ⟨tree', tables, hattempt, hfilled⟩ := layPage_attempt h hfirst hmap
    have hshown := layPage_shows h hfirst (hfits image (.head _)) hmap hw
    rcases ih (fun i hi => hpriv i (.tail _ hi))
      (fun i hi => hfits i (.tail _ hi)) hfilled hlaid with
      ⟨hnone, hsame⟩ | ⟨last, other, hlast, hfree, hbyte⟩
    · rw [lastImage, hnone, Option.none_or, hsame, hshown]
      by_cases hpath : path w = path image.page
      · rw [if_pos hpath, if_pos hpath]
        obtain ⟨pmm, halloc, -⟩ := allocateAndMapPage_some hmap
        exact .inr ⟨image, frame, rfl, (allocFrame_spec halloc).free, rfl⟩
      · rw [if_neg hpath, if_neg hpath]
        exact .inl ⟨rfl, rfl⟩
    · -- a frame that is still free was not touched by laying the first page
      obtain ⟨hwas, hnew⟩ := (hattempt.grown.free other).mp hfree
      have hne : other ≠ frame := fun heq => hnew (heq ▸ (.head _))
      have hkept : ∀ i, (s₁.fill frame image).mem other i = s.mem other i := by
        intro i
        have hcopy : (s₁.fill frame image).mem other i = s₁.mem other i :=
          copyBytes_of_ne hne _ _ s₁.mem i
        rw [hcopy, hattempt.grown.mem other (fun hhas => h.not_free hhas hwas) hnew]
      refine .inr ⟨last, other, ?_, hwas, ?_⟩
      · rw [lastImage, hlast, Option.some_or]
      · rw [hbyte, over_congr (readByte_congr hkept _)]

end Laying

section Loading

variable {kern : KernelTables} {kernelCr3 : Nat} {data : List (BitVec 8)} {stray : Nat → BitVec 8}
  {mem mem' : Mem} {pmm pmm' : Pmm} {elf : ElfBinary} {phdrs : List Elf64ProgramHeader}

theorem loadElf_last {loaded : LoadedElf} (hroot : KernelRoot mem pmm kern kernelCr3)
    (hparse : ElfBinary.parse data = .ok elf) (hphdrs : elf.programHeaders = .ok phdrs)
    (hpriv : ∀ page ∈ loadPages data phdrs, kern.Private page)
    (hload : loadElf kernelCr3 data stray mem pmm = (.ok loaded, mem', pmm')) (w : Nat) :
    (lastImage (imagePages data stray phdrs) w = none ∧
        visibleByte mem' loaded.space.pml4 w = none) ∨
      ∃ image frame, lastImage (imagePages data stray phdrs) w = some image ∧ pmm.FreeAt frame ∧
        visibleByte mem' loaded.space.pml4 w =
          some (image.over (readByte mem frame) (w % pageSize)) := by
  obtain ⟨elf', phdrs', space, mem₁, pmm₁, hparse', hphdrs', hnew, hsame, -, -, hlaid⟩ :=
    loadElf_lays hload
  rw [hparse] at hparse'
  cases hparse'
  rw [hphdrs] at hphdrs'
  cases hphdrs'
  have himages := imagePages_private stray hpriv
  rw [hsame.pml4]
  rcases new_cases hroot with ⟨_, _, _, heq, -⟩ | ⟨space', mem₂, pmm₂, tree, heq, hcreated⟩
  · rw [heq] at hnew
    cases hnew
  rw [heq] at hnew
  cases hnew
  obtain ⟨⟨tree', howns'⟩, -⟩ := layPages_pages himages hcreated.owns hlaid
  by_cases hw : kern.Private w
  · have hvisible : visibleByte mem' space.pml4 w = pageByte mem' space.pml4 w :=
      visibleByte_of_private howns' hw
    rw [hvisible]
    rcases layPages_last himages imagePages_fits hcreated.owns hlaid hw with
      ⟨hnone, hsame⟩ | ⟨image, frame, hlast, hfree, hbyte⟩
    · refine .inl ⟨hnone, hsame.trans ?_⟩
      rw [pageByte, hcreated.pte_none hw]
      rfl
    · obtain ⟨hwas, hfresh⟩ := (hcreated.grown.free frame).mp hfree
      have hkept : ∀ i, mem₁ frame i = mem frame i :=
        hcreated.grown.mem frame (not_has_empty frame) hfresh
      exact .inr ⟨image, frame, hlast, hwas, hbyte.trans
        (congrArg some (over_congr (readByte_congr hkept _)))⟩
  · exact .inl ⟨lastImage_eq_none_iff.mpr fun image himage hpath =>
      hw (private_of_path hpath (himages image himage)), visibleByte_of_not_private howns' hw⟩

noncomputable def refill (mem : Mem) (pmm : Pmm) (offset : Nat) (byte : BitVec 8) : Mem :=
  open Classical in
  fun t i => if pmm.FreeAt t then mem.writeByte t offset byte t i else mem t i

theorem readByte_refill {offset : Nat} (byte : BitVec 8) (hlt : offset < pageSize) {frame : Nat}
    (hfree : pmm.FreeAt frame) : readByte (refill mem pmm offset byte) frame offset = byte := by
  have hframe : ∀ i, refill mem pmm offset byte frame i = mem.writeByte frame offset byte frame i :=
    fun i => if_pos hfree
  rw [readByte_congr hframe, readByte_writeByte mem frame byte hlt hlt, if_pos rfl]

theorem kernelRoot_refill (hroot : KernelRoot mem pmm kern kernelCr3) (offset : Nat)
    (byte : BitVec 8) : KernelRoot (refill mem pmm offset byte) pmm kern kernelCr3 where
  pml4 := by
    rw [← hroot.pml4]
    funext i
    exact if_neg hroot.pml4NotFree
  pdpt := by
    rw [← hroot.pdpt]
    funext i
    exact if_neg hroot.pdptNotFree
  pml4NotFree := hroot.pml4NotFree
  pdptNotFree := hroot.pdptNotFree

theorem loadElf_refill (hroot : KernelRoot mem pmm kern kernelCr3)
    (hparse : ElfBinary.parse data = .ok elf) (hphdrs : elf.programHeaders = .ok phdrs)
    (hpriv : ∀ page ∈ loadPages data phdrs, kern.Private page)
    (hload : ∃ loaded mem' pmm', loadElf kernelCr3 data stray mem pmm = (.ok loaded, mem', pmm'))
    (offset : Nat) (byte : BitVec 8) :
    ∃ loaded mem' pmm',
      loadElf kernelCr3 data stray (refill mem pmm offset byte) pmm = (.ok loaded, mem', pmm') := by
  have hroot' := kernelRoot_refill hroot offset byte
  have hne : (1 : Nat) ≠ 0 := by decide
  have hprivate : ∀ page ∈ mappedPages data phdrs, kern.Private page := by
    intro page hpage
    rw [← map_page_imagePages data stray phdrs] at hpage
    obtain ⟨image, himage, rfl⟩ := List.mem_map.mp hpage
    exact imagePages_private stray hpriv image himage
  have hframes : framesToLoad kernelCr3 mem data phdrs =
      framesToLoad kernelCr3 (refill mem pmm offset byte) data phdrs := by
    rw [framesToLoad, framesToLoad, framesFor_congr
      (shape_clonedTree hne hroot.pml4 hroot.pdpt) (shape_clonedTree hne hroot'.pml4 hroot'.pdpt)
      (fun _ => rfl) _ hprivate]
  rw [loadElf_ok_iff hroot hparse hphdrs hpriv, hframes] at hload
  exact (loadElf_ok_iff hroot' hparse hphdrs hpriv).mpr hload

end Loading

section Segments

def BelowStack (phdr : Elf64ProgramHeader) : Prop :=
  0x40000000 ≤ phdr.pVaddr ∧ phdr.pVaddr + phdr.pMemsz ≤ 0x7FFFB000

def ApartInMemory (phdr other : Elf64ProgramHeader) : Prop :=
  ∀ a, phdr.pVaddr ≤ a ∧ a < phdr.pVaddr + phdr.pMemsz →
    ¬ (other.pVaddr ≤ a ∧ a < other.pVaddr + other.pMemsz)

def EagerlyMaps (phdr : Elf64ProgramHeader) (virt : Nat) : Prop :=
  phdr.pageStart ≤ virt ∧ virt < phdr.eagerPageEnd

variable {data : List (BitVec 8)} {stray : Nat → BitVec 8} {phdr : Elf64ProgramHeader}
  {phdrs : List Elf64ProgramHeader} {virt : Nat} {byte : BitVec 8}

theorem loadImages_eq (hvalid : ∀ phdr ∈ phdrs, phdr.skipped = false → phdr.invalid data = false) :
    loadImages data stray phdrs = (phdrs.filter (!·.skipped)).flatMap fun phdr =>
      (pagesUp phdr.pageStart phdr.eagerPages).map (segmentImage data stray phdr) := by
  induction phdrs with
  | nil => rfl
  | cons phdr rest ih =>
    have hrest := ih fun p hp => hvalid p (.tail _ hp)
    rw [loadImages, List.filter_cons]
    cases hskipped : phdr.skipped with
    | true => exact hrest
    | false =>
      simp only [hvalid phdr List.mem_cons_self hskipped, Bool.false_eq_true, if_false,
        Bool.not_false, if_true, List.flatMap_cons, hrest]

theorem filesz_le_of_valid (h : phdr.invalid data = false) : phdr.pFilesz ≤ phdr.pMemsz := by
  simp only [Elf64ProgramHeader.invalid, Bool.or_eq_false_iff, decide_eq_false_iff_not,
    Nat.not_lt] at h
  exact h.1

theorem mem_pagesUp_iff_eagerlyMaps (hbelow : BelowStack phdr) :
    alignDownPage virt ∈ pagesUp phdr.pageStart phdr.eagerPages ↔ EagerlyMaps phdr virt := by
  obtain ⟨hlow, hhigh⟩ := hbelow
  have hend : phdr.eagerPageEnd % pageSize = 0 := by
    rw [Elf64ProgramHeader.eagerPageEnd, Elf64ProgramHeader.pageEnd, Elf64ProgramHeader.pageStart]
    rcases Nat.le_total (if 0 < phdr.pFilesz then
      add64 phdr.fileDataEnd (pageSize - 1) / pageSize * pageSize
        else phdr.pVaddr / pageSize * pageSize)
      (add64 (add64 phdr.pVaddr phdr.pMemsz) (pageSize - 1) / pageSize * pageSize) with hle | hle
    · rw [Nat.min_eq_left hle]
      split
      · exact Nat.mul_mod_left _ _
      · exact Nat.mul_mod_left _ _
    · rw [Nat.min_eq_right hle]
      exact Nat.mul_mod_left _ _
  have hstart : phdr.pageStart % pageSize = 0 := Nat.mul_mod_left _ _
  rw [mem_pagesUp, EagerlyMaps, Elf64ProgramHeader.eagerPages]
  simp only [alignDownPage, pageSize] at *
  constructor
  · rintro ⟨i, hi, hpage⟩
    omega
  · rintro ⟨hle, hlt⟩
    exact ⟨(virt / 4096 * 4096 - phdr.pageStart) / 4096, by omega, by omega⟩

theorem eagerPageEnd_le (hbelow : BelowStack phdr) : phdr.eagerPageEnd ≤ 0x7FFFB000 := by
  obtain ⟨hlow, hhigh⟩ := hbelow
  refine Nat.le_trans (Nat.min_le_right _ _) ?_
  grind

theorem fileDataEnd_eq (hbelow : BelowStack phdr) (hsize : phdr.pFilesz ≤ phdr.pMemsz) :
    phdr.fileDataEnd = phdr.pVaddr + phdr.pFilesz := by
  obtain ⟨hlow, hhigh⟩ := hbelow
  exact add64_eq (by omega)

theorem eagerlyMaps_of_file (hbelow : BelowStack phdr) (hsize : phdr.pFilesz ≤ phdr.pMemsz)
    {i : Nat}
    (hi : i < phdr.pFilesz) : EagerlyMaps phdr (phdr.pVaddr + i) := by
  have hdata := fileDataEnd_eq hbelow hsize
  obtain ⟨hlow, hhigh⟩ := hbelow
  rw [EagerlyMaps, Elf64ProgramHeader.eagerPageEnd, if_pos (by omega), hdata]
  simp only [Elf64ProgramHeader.pageStart, Elf64ProgramHeader.pageEnd, add64, pageSize]
  omega

theorem eager_private {kern : KernelTables}
    (hbelow : ∀ phdr ∈ phdrs, phdr.skipped = false → BelowStack phdr) :
    ∀ page ∈ loadPages data phdrs, kern.Private page := by
  induction phdrs with
  | nil => exact nofun
  | cons phdr rest ih =>
    have hrest := ih fun p hp => hbelow p (.tail _ hp)
    intro page hpage
    rw [loadPages] at hpage
    cases hskipped : phdr.skipped with
    | true =>
      rw [hskipped] at hpage
      exact hrest page hpage
    | false =>
      simp only [hskipped, Bool.false_eq_true, if_false] at hpage
      split at hpage
      · cases hpage
      · rcases List.mem_append.mp hpage with hpage | hpage
        · have hphdr := hbelow phdr List.mem_cons_self hskipped
          have haligned := (eager_page hpage).1
          have hself : alignDownPage page = page := by
            grind
          have hmaps := (mem_pagesUp_iff_eagerlyMaps hphdr).mp (hself.symm ▸ hpage)
          have hend := eagerPageEnd_le hphdr
          obtain ⟨hlow, -⟩ := hphdr
          obtain ⟨hle, hlt⟩ := hmaps
          refine private_of_window ⟨?_, by omega⟩
          grind
        · exact hrest page hpage

/-- An address on a page with file data of a segment: the byte is copied where the
segment has file data. -/
theorem segmentImage_supplies (hbelow : BelowStack phdr) (hsize : phdr.pFilesz ≤ phdr.pMemsz)
    (hmaps : EagerlyMaps phdr virt) :
    (segmentImage data stray phdr (alignDownPage virt)).Supplies (virt % pageSize) byte ↔
      if phdr.pVaddr ≤ virt ∧ virt < phdr.pVaddr + phdr.pFilesz then
        sourceByte data stray (add64 phdr.pOffset (virt - phdr.pVaddr)) = byte
      else virt % pageSize = 0 ∧ byte = 0 := by
  have hdata := fileDataEnd_eq hbelow hsize
  have htop := eagerPageEnd_le hbelow
  obtain ⟨hle, hlt⟩ := hmaps
  have hsplit : alignDownPage virt + virt % pageSize = virt := by
    grind
  have hoff : virt % pageSize < pageSize := Nat.mod_lt _ (by decide)
  have hstop : add64 (alignDownPage virt) pageSize = alignDownPage virt + pageSize :=
    add64_eq (by grind)
  rw [PageImage.Supplies]
  simp only [segmentImage, hstop, hdata, List.length_map, List.length_range, List.getElem?_map]
  by_cases hin : phdr.pVaddr ≤ virt ∧ virt < phdr.pVaddr + phdr.pFilesz
  · have hindex : virt % pageSize - (max (alignDownPage virt) phdr.pVaddr - alignDownPage virt) <
        min (alignDownPage virt + pageSize) (phdr.pVaddr + phdr.pFilesz) -
          max (alignDownPage virt) phdr.pVaddr := by omega
    have hsource : add64 (add64 phdr.pOffset (max (alignDownPage virt) phdr.pVaddr - phdr.pVaddr))
        (virt % pageSize - (max (alignDownPage virt) phdr.pVaddr - alignDownPage virt)) =
          add64 phdr.pOffset (virt - phdr.pVaddr) := by
      grind
    rw [if_pos (by omega), if_pos hin, List.getElem?_range hindex, Option.map_some, hsource,
      Option.some.injEq]
  · rw [if_neg (by omega), if_neg hin]

theorem path_eq_page_iff (hvirt : virt < 0x7FFFB000) {page : Nat} (hpage : page < 0x80000000)
    (haligned : page % pageSize = 0) : path virt = path page ↔ page = alignDownPage virt := by
  rw [path_inj (by omega) (by omega)]
  grind

theorem lastImage_stack (hvirt : virt < 0x7FFFB000) :
    lastImage (stackImages defaultUserStackTop defaultUserStackPages 1) virt = none := by
  rw [lastImage_eq_none_iff]
  intro image himage
  obtain ⟨j, hlo, hhi, rfl⟩ := mem_stackImages himage
  have hpage : ∃ page, sub64 defaultUserStackTop (j * pageSize % 2 ^ 64) = page ∧
      0x7FFFC000 ≤ page ∧ page < 0x80000000 ∧ page % pageSize = 0 := by
    refine ⟨_, rfl, ?_⟩
    simp only [sub64, defaultUserStackTop, defaultUserStackPages, pageSize] at *
    omega
  obtain ⟨page, heq, hlow, htop, haligned⟩ := hpage
  simp only [heq]
  rw [ne_eq, path_eq_page_iff hvirt htop haligned, alignDownPage]
  grind

theorem lastImage_loadImages
    (hvalid : ∀ phdr ∈ phdrs, phdr.skipped = false → phdr.invalid data = false)
    (hbelow : ∀ phdr ∈ phdrs, phdr.skipped = false → BelowStack phdr) (hvirt : virt < 0x7FFFB000) :
    (lastImage (loadImages data stray phdrs) virt = none ∧
        ∀ phdr ∈ phdrs, phdr.skipped = false → ¬ EagerlyMaps phdr virt) ∨
      ∃ phdr ∈ phdrs, phdr.skipped = false ∧ EagerlyMaps phdr virt ∧
        lastImage (loadImages data stray phdrs) virt =
          some (segmentImage data stray phdr (alignDownPage virt)) := by
  -- an image of a segment is for the page of the address if its path is that of the address
  have hpage : ∀ phdr ∈ phdrs, phdr.skipped = false →
      ∀ page ∈ pagesUp phdr.pageStart phdr.eagerPages,
      path virt = path page ↔ page = alignDownPage virt := by
    intro phdr hphdr hskipped page hpage
    have haligned := (eager_page hpage).1
    have hself : alignDownPage page = page := by
      grind
    have hmaps := (mem_pagesUp_iff_eagerlyMaps (hbelow phdr hphdr hskipped)).mp (hself.symm ▸ hpage)
    have htop := eagerPageEnd_le (hbelow phdr hphdr hskipped)
    obtain ⟨-, hlt⟩ := hmaps
    exact path_eq_page_iff hvirt (by omega) haligned
  rw [loadImages_eq hvalid]
  cases hlast : lastImage ((phdrs.filter (!·.skipped)).flatMap fun phdr =>
      (pagesUp phdr.pageStart phdr.eagerPages).map (segmentImage data stray phdr)) virt with
  | none =>
    refine .inl ⟨rfl, fun phdr hphdr hskipped hmaps => ?_⟩
    have hmem := (mem_pagesUp_iff_eagerlyMaps (hbelow phdr hphdr hskipped)).mpr hmaps
    refine lastImage_eq_none_iff.mp hlast (segmentImage data stray phdr (alignDownPage virt)) ?_
      ((hpage phdr hphdr hskipped _ hmem).mpr rfl)
    exact List.mem_flatMap.mpr ⟨phdr, List.mem_filter.mpr ⟨hphdr, by simp [hskipped]⟩,
      List.mem_map_of_mem hmem⟩
  | some image =>
    obtain ⟨himage, hpath⟩ := mem_of_lastImage hlast
    obtain ⟨phdr, hphdr, himage⟩ := List.mem_flatMap.mp himage
    obtain ⟨page, hmem, rfl⟩ := List.mem_map.mp himage
    obtain ⟨hphdr, hskipped⟩ := List.mem_filter.mp hphdr
    have hskipped : phdr.skipped = false := by simpa using hskipped
    have heq := (hpage phdr hphdr hskipped page hmem).mp hpath
    subst heq
    exact .inr ⟨phdr, hphdr, hskipped,
      (mem_pagesUp_iff_eagerlyMaps (hbelow phdr hphdr hskipped)).mp hmem, rfl⟩

def Supplied (data : List (BitVec 8)) (stray : Nat → BitVec 8) (phdrs : List Elf64ProgramHeader)
    (virt : Nat) (byte : BitVec 8) : Prop :=
  ∃ image, lastImage (imagePages data stray phdrs) virt = some image ∧
    image.Supplies (virt % pageSize) byte

/-- A file byte of a segment that shares no byte with the others is shown if no later
segment maps its page, or if it is the zero that every new page starts with. -/
theorem supplied_iff {front back : List Elf64ProgramHeader} (hlength : data.length < 2 ^ 64)
    (hsplit : phdrs = front ++ phdr :: back) (hskipped : phdr.skipped = false)
    (hvalid : ∀ phdr ∈ phdrs, phdr.skipped = false → phdr.invalid data = false)
    (hbelow : ∀ phdr ∈ phdrs, phdr.skipped = false → BelowStack phdr)
    (hapart : ∀ later ∈ back, later.skipped = false → ApartInMemory phdr later) {i : Nat}
    (hi : i < phdr.pFilesz) (hbyte : data[phdr.pOffset + i]? = some byte) :
    Supplied data stray phdrs (phdr.pVaddr + i) byte ↔
      ∀ later ∈ back, later.skipped = false → EagerlyMaps later (phdr.pVaddr + i) →
        (phdr.pVaddr + i) % pageSize = 0 ∧ byte = 0 := by
  have hback : ∀ later ∈ back, later ∈ phdrs := fun later hlater => by simp [hsplit, hlater]
  have hself : phdr ∈ phdrs := by simp [hsplit]
  have hsize := filesz_le_of_valid (hvalid phdr hself hskipped)
  have hmaps := eagerlyMaps_of_file (hbelow phdr hself hskipped) hsize hi
  have hvirt : phdr.pVaddr + i < 0x7FFFB000 :=
    Nat.lt_of_lt_of_le hmaps.2 (eagerPageEnd_le (hbelow phdr hself hskipped))
  have hfile : phdr.pOffset + i < data.length := by
    by_contra hout
    rw [List.getElem?_eq_none (by omega)] at hbyte
    cases hbyte
  -- what the segment itself copies to the address
  have hown : (segmentImage data stray phdr (alignDownPage (phdr.pVaddr + i))).Supplies
      ((phdr.pVaddr + i) % pageSize) byte := by
    rw [segmentImage_supplies (hbelow phdr hself hskipped) hsize hmaps, if_pos ⟨by omega, by omega⟩,
      Nat.add_sub_cancel_left, add64_eq (by omega), sourceByte, if_pos hfile,
      List.getD_eq_getElem?_getD, hbyte, Option.getD_some]
  -- a later segment has no file data there
  have hother : ∀ later ∈ back, later.skipped = false → EagerlyMaps later (phdr.pVaddr + i) →
      ((segmentImage data stray later (alignDownPage (phdr.pVaddr + i))).Supplies
        ((phdr.pVaddr + i) % pageSize) byte ↔ (phdr.pVaddr + i) % pageSize = 0 ∧ byte = 0) := by
    intro later hlater hloads hlaterMaps
    have hlaterSize := filesz_le_of_valid (hvalid later (hback later hlater) hloads)
    have hout := hapart later hlater hloads (phdr.pVaddr + i) ⟨by omega, by omega⟩
    rw [segmentImage_supplies (hbelow later (hback later hlater) hloads) hlaterSize hlaterMaps,
      if_neg fun hin => hout ⟨hin.1, by omega⟩]
  have hfront : ∀ p ∈ front, p ∈ phdrs := fun p hp => by simp [hsplit, hp]
  have hone : ∀ p ∈ [phdr], p ∈ phdrs := fun p hp => List.mem_singleton.mp hp ▸ hself
  have himages : imagePages data stray phdrs = loadImages data stray front ++
      loadImages data stray [phdr] ++ loadImages data stray back ++
        stackImages defaultUserStackTop defaultUserStackPages 1 := by
    rw [imagePages, loadImages_eq hvalid, loadImages_eq fun p hp => hvalid p (hfront p hp),
      loadImages_eq fun p hp => hvalid p (hone p hp),
      loadImages_eq fun p hp => hvalid p (hback p hp), ← List.flatMap_append,
      ← List.flatMap_append, ← List.filter_append, ← List.filter_append, List.append_assoc front,
      List.singleton_append, ← hsplit]
  have hfirst : lastImage (loadImages data stray [phdr]) (phdr.pVaddr + i) =
      some (segmentImage data stray phdr (alignDownPage (phdr.pVaddr + i))) := by
    rcases lastImage_loadImages (fun p hp => hvalid p (hone p hp))
      (fun p hp => hbelow p (hone p hp)) hvirt with ⟨-, hnone⟩ | ⟨p, hp, -, -, hlast⟩
    · exact absurd hmaps (hnone phdr List.mem_cons_self hskipped)
    · rw [hlast, List.mem_singleton.mp hp]
  rw [Supplied, himages, lastImage_append, lastImage_append, lastImage_append,
    lastImage_stack hvirt, Option.none_or, hfirst, Option.some_or]
  rcases lastImage_loadImages (fun p hp => hvalid p (hback p hp))
    (fun p hp => hbelow p (hback p hp)) hvirt with
    ⟨hnone, hmapsNone⟩ | ⟨later, hlater, hloads, hlaterMaps, hlast⟩
  · rw [hnone, Option.none_or]
    constructor
    · intro _ later hlater hloads hlaterMaps
      exact absurd hlaterMaps (hmapsNone later hlater hloads)
    · intro _
      exact ⟨_, rfl, hown⟩
  · rw [hlast, Option.some_or]
    constructor
    · rintro ⟨image, himage, hsupplies⟩ _ _ _ _
      cases himage
      exact (hother later hlater hloads hlaterMaps).mp hsupplies
    · intro hzero
      exact ⟨_, rfl,
        (hother later hlater hloads hlaterMaps).mpr (hzero later hlater hloads hlaterMaps)⟩

end Segments

section Correctness

/-- Every file byte of every `PT_LOAD` header can be read where the header puts it. -/
def ShowsFile (data : List (BitVec 8)) (phdrs : List Elf64ProgramHeader) (mem : Mem) (root : Nat) :
    Prop :=
  ∀ phdr ∈ phdrs, phdr.pType = ptLoad → ∀ i < phdr.pFilesz, ∃ byte,
    data[phdr.pOffset + i]? = some byte ∧ visibleByte mem root (phdr.pVaddr + i) = some byte

/-- The file bytes of the loaded segments are in the file, and no later segment maps
their pages; a zero at the start of a page stays a zero. -/
def KeepsFileBytes (data : List (BitVec 8)) (phdrs : List Elf64ProgramHeader) : Prop :=
  ∀ front phdr back, phdrs = front ++ phdr :: back → phdr.skipped = false →
    ∀ i < phdr.pFilesz, ∃ byte, data[phdr.pOffset + i]? = some byte ∧
      ∀ later ∈ back, later.skipped = false → EagerlyMaps later (phdr.pVaddr + i) →
        (phdr.pVaddr + i) % pageSize = 0 ∧ byte = 0

/-- The file bytes of headers without memory, which are not loaded, happen to be those
that other segments put there. -/
def SkipsNoBytes (data : List (BitVec 8)) (stray : Nat → BitVec 8)
    (phdrs : List Elf64ProgramHeader) : Prop :=
  ∀ phdr ∈ phdrs, phdr.pType = ptLoad → phdr.pMemsz = 0 → ∀ i < phdr.pFilesz, ∃ byte,
    data[phdr.pOffset + i]? = some byte ∧ Supplied data stray phdrs (phdr.pVaddr + i) byte

variable {kern : KernelTables} {kernelCr3 : Nat} {data : List (BitVec 8)} {stray : Nat → BitVec 8}
  {mem : Mem} {pmm : Pmm} {elf : ElfBinary} {phdrs : List Elf64ProgramHeader} {virt : Nat}
  {byte : BitVec 8}

/-- A byte is the same after every load of the file if and only if the last image for
its page supplies it: the free frames may hold anything. -/
theorem supplied_iff_visible (hroot : KernelRoot mem pmm kern kernelCr3)
    (hparse : ElfBinary.parse data = .ok elf) (hphdrs : elf.programHeaders = .ok phdrs)
    (hpriv : ∀ kern : KernelTables, ∀ page ∈ loadPages data phdrs, kern.Private page)
    (hload : ∃ loaded mem' pmm', loadElf kernelCr3 data stray mem pmm = (.ok loaded, mem', pmm')) :
    Supplied data stray phdrs virt byte ↔
      ∀ kern kernelCr3 mem pmm loaded mem' pmm', KernelRoot mem pmm kern kernelCr3 →
        loadElf kernelCr3 data stray mem pmm = (.ok loaded, mem', pmm') →
          visibleByte mem' loaded.space.pml4 virt = some byte := by
  constructor
  · rintro ⟨image, hlast, hsupplies⟩ kern kernelCr3 mem pmm loaded mem' pmm' hroot hload
    rcases loadElf_last hroot hparse hphdrs (hpriv kern) hload virt with
      ⟨hnone, -⟩ | ⟨image', frame, hlast', -, hvisible⟩
    · rw [hlast] at hnone
      cases hnone
    · rw [hlast] at hlast'
      cases hlast'
      rw [hvisible, supplies_iff_over.mp hsupplies]
  · intro hshows
    obtain ⟨loaded, mem', pmm', hload₁⟩ := hload
    rcases loadElf_last hroot hparse hphdrs (hpriv kern) hload₁ virt with
      ⟨-, hnone⟩ | ⟨image, -, hlast, -, -⟩
    · rw [hshows _ _ _ _ _ _ _ hroot hload₁] at hnone
      cases hnone
    · refine ⟨image, hlast, supplies_iff_over.mpr fun stale => ?_⟩
      -- load the file again over frames that hold this byte
      have hlt : virt % pageSize < pageSize := Nat.mod_lt _ (by decide)
      obtain ⟨loaded₂, mem₂, pmm₂, hload₂⟩ := loadElf_refill hroot hparse hphdrs (hpriv kern)
        ⟨loaded, mem', pmm', hload₁⟩ (virt % pageSize) (stale (virt % pageSize))
      have hroot₂ := kernelRoot_refill hroot (virt % pageSize) (stale (virt % pageSize))
      have hshown := hshows _ _ _ _ _ _ _ hroot₂ hload₂
      rcases loadElf_last hroot₂ hparse hphdrs (hpriv kern) hload₂ virt with
        ⟨-, hnone⟩ | ⟨image', frame, hlast', hfree, hvisible⟩
      · rw [hshown] at hnone
        cases hnone
      · rw [hlast] at hlast'
        cases hlast'
        rw [hshown, Option.some.injEq] at hvisible
        rw [hvisible]
        exact over_congr (readByte_refill _ hlt hfree).symm

/-- `load_elf` puts the file bytes of a program with segments below the stack in place,
over whatever the free frames hold, exactly if no segment maps a page on which an
earlier one has file bytes other than a zero at its start. -/
theorem image_correct_iff (data : List (BitVec 8)) (stray : Nat → BitVec 8)
    (hlength : data.length < 2 ^ 64) {elf : ElfBinary} {phdrs : List Elf64ProgramHeader}
    (hparse : ElfBinary.parse data = .ok elf) (hphdrs : elf.programHeaders = .ok phdrs)
    (hbelow : ∀ phdr ∈ phdrs, phdr.skipped = false → BelowStack phdr)
    (hapart : phdrs.Pairwise fun phdr other =>
      phdr.skipped = false → other.skipped = false → ApartInMemory phdr other)
    (haccepted : ∃ kern kernelCr3 mem pmm loaded mem' pmm', KernelRoot mem pmm kern kernelCr3 ∧
      loadElf kernelCr3 data stray mem pmm = (.ok loaded, mem', pmm')) :
    KeepsFileBytes data phdrs ∧ SkipsNoBytes data stray phdrs ↔
      ∀ kern kernelCr3 mem pmm loaded mem' pmm', KernelRoot mem pmm kern kernelCr3 →
        loadElf kernelCr3 data stray mem pmm = (.ok loaded, mem', pmm') →
          ShowsFile data phdrs mem' loaded.space.pml4 := by
  obtain ⟨kern, kernelCr3, mem, pmm, loaded, mem', pmm', hroot, hload⟩ := haccepted
  have hpriv : ∀ kern : KernelTables, ∀ page ∈ loadPages data phdrs, kern.Private page :=
    fun kern => eager_private hbelow
  have hvalid :=
    ((loadElf_ok_iff hroot hparse hphdrs (hpriv kern)).mp ⟨loaded, mem', pmm', hload⟩).1
  have hvisible : ∀ virt byte, Supplied data stray phdrs virt byte ↔ _ := fun virt byte =>
    supplied_iff_visible hroot hparse hphdrs hpriv ⟨loaded, mem', pmm', hload⟩
  -- the file bytes of a loaded segment, by position
  have hkeeps : ∀ front phdr back, phdrs = front ++ phdr :: back → phdr.skipped = false →
      ∀ i < phdr.pFilesz, ∀ byte, data[phdr.pOffset + i]? = some byte →
        (Supplied data stray phdrs (phdr.pVaddr + i) byte ↔ ∀ later ∈ back, later.skipped = false →
          EagerlyMaps later (phdr.pVaddr + i) → (phdr.pVaddr + i) % pageSize = 0 ∧ byte = 0) := by
    intro front phdr back hsplit hskipped i hi byte hbyte
    refine supplied_iff hlength hsplit hskipped hvalid hbelow
      (fun later hlater hloads => ?_) hi hbyte
    rw [hsplit, List.pairwise_append, List.pairwise_cons] at hapart
    exact hapart.2.1.1 later hlater hskipped hloads
  constructor
  · rintro ⟨hkept, hskips⟩ kern kernelCr3 mem pmm loaded mem' pmm' hroot hload phdr hphdr htype i hi
    have hsupplied : ∃ byte, data[phdr.pOffset + i]? = some byte ∧
        Supplied data stray phdrs (phdr.pVaddr + i) byte := by
      cases hskipped : phdr.skipped with
      | true =>
        have hempty : phdr.pMemsz = 0 := by
          simpa [Elf64ProgramHeader.skipped, htype] using hskipped
        exact hskips phdr hphdr htype hempty i hi
      | false =>
        obtain ⟨front, back, hsplit⟩ := List.append_of_mem hphdr
        obtain ⟨byte, hbyte, hlater⟩ := hkept front phdr back hsplit hskipped i hi
        exact ⟨byte, hbyte, (hkeeps front phdr back hsplit hskipped i hi byte hbyte).mpr hlater⟩
    obtain ⟨byte, hbyte, hsupplied⟩ := hsupplied
    exact ⟨byte, hbyte, (hvisible _ _).mp hsupplied _ _ _ _ _ _ _ hroot hload⟩
  · intro hshows
    have hsupplied : ∀ phdr ∈ phdrs, phdr.pType = ptLoad → ∀ i < phdr.pFilesz, ∃ byte,
        data[phdr.pOffset + i]? = some byte ∧ Supplied data stray phdrs (phdr.pVaddr + i) byte := by
      intro phdr hphdr htype i hi
      obtain ⟨byte, hbyte, -⟩ := hshows _ _ _ _ _ _ _ hroot hload phdr hphdr htype i hi
      refine ⟨byte, hbyte, (hvisible _ _).mpr ?_⟩
      intro kern kernelCr3 mem pmm loaded mem' pmm' hroot hload
      obtain ⟨other, hother, hshown⟩ := hshows _ _ _ _ _ _ _ hroot hload phdr hphdr htype i hi
      rw [hbyte] at hother
      cases hother
      exact hshown
    refine ⟨fun front phdr back hsplit hskipped i hi => ?_,
      fun phdr hphdr htype _ => hsupplied phdr hphdr htype⟩
    have htype : phdr.pType = ptLoad := by
      simp only [Elf64ProgramHeader.skipped, Bool.or_eq_false_iff, bne_eq_false_iff_eq] at hskipped
      exact hskipped.1
    obtain ⟨byte, hbyte, hgiven⟩ := hsupplied phdr (by simp [hsplit]) htype i hi
    exact ⟨byte, hbyte, (hkeeps front phdr back hsplit hskipped i hi byte hbyte).mp hgiven⟩

/-- The four bytes of the sample program are shown over any frames. -/
theorem image_correct_sampleProgram :
    ∃ elf phdrs, ElfBinary.parse sampleProgram = .ok elf ∧ elf.programHeaders = .ok phdrs ∧
      ∀ kern kernelCr3 mem pmm loaded mem' pmm', KernelRoot mem pmm kern kernelCr3 →
        loadElf kernelCr3 sampleProgram (fun _ => 0) mem pmm = (.ok loaded, mem', pmm') →
          ShowsFile sampleProgram phdrs mem' loaded.space.pml4 := by
  have hloads : ∃ loaded mem' pmm', loadElf 0x1000 sampleProgram (fun _ => 0) hardwareTables
      (fewFrames 16) = (.ok loaded, mem', pmm') := loadElf_of_isSome (by decide +kernel)
  obtain ⟨loaded, mem', pmm', hload⟩ := hloads
  obtain ⟨elf, phdrs, -, -, -, hparse, hphdrs, -⟩ := loadElf_lays hload
  have hheaders := sampleProgram_headers hparse hphdrs
  have hone : ∀ phdr ∈ phdrs, phdr = ⟨1, 5, 120, 0x40000010, 0x40000010, 4, 0x2000, 0x1000⟩ := by
    simp [hheaders]
  have hlength : sampleProgram.length = 124 := by decide +kernel
  refine ⟨elf, phdrs, hparse, hphdrs, (image_correct_iff sampleProgram (fun _ => 0) (by omega)
    hparse hphdrs ?_ ?_ ⟨hardwareKernel, 0x1000, hardwareTables, fewFrames 16, loaded, mem', pmm',
      hardwareKernel_root _, hload⟩).mp ⟨?_, ?_⟩⟩
  · intro phdr hphdr _
    rw [hone phdr hphdr, BelowStack]
    decide
  · rw [hheaders]
    exact List.pairwise_singleton _ _
  · intro front phdr back hsplit _ i hi
    have hphdr := hone phdr (by simp [hsplit])
    have hback : back = [] := by
      have hlength := congrArg List.length (hheaders.symm.trans hsplit)
      simp only [List.length_append, List.length_cons, List.length_nil] at hlength
      exact List.eq_nil_of_length_eq_zero (by omega)
    subst hphdr hback
    have hfile : 120 + i < sampleProgram.length := by
      rw [hlength]
      exact Nat.add_lt_add_left hi 120
    exact ⟨_, List.getElem?_eq_getElem hfile, nofun⟩
  · intro phdr hphdr _ hempty
    rw [hone phdr hphdr] at hempty
    cases hempty

/-- A program of two segments on one page: four bytes at 0x40000000, four at 0x40000010. -/
def sharedPageProgram : List (BitVec 8) :=
  [0x7F, 0x45, 0x4C, 0x46, 2, 1, 1, 0, 0, 0, 0, 0, 0, 0, 0, 0,
    2, 0, 0x3E, 0, 1, 0, 0, 0, 0, 0, 0, 0x40, 0, 0, 0, 0,
    64, 0, 0, 0, 0, 0, 0, 0, 0, 0, 0, 0, 0, 0, 0, 0,
    0, 0, 0, 0, 64, 0, 56, 0, 2, 0, 0, 0, 0, 0, 0, 0,
    1, 0, 0, 0, 5, 0, 0, 0, 176, 0, 0, 0, 0, 0, 0, 0,
    0, 0, 0, 0x40, 0, 0, 0, 0, 0, 0, 0, 0x40, 0, 0, 0, 0,
    4, 0, 0, 0, 0, 0, 0, 0, 4, 0, 0, 0, 0, 0, 0, 0,
    0, 0x10, 0, 0, 0, 0, 0, 0,
    1, 0, 0, 0, 6, 0, 0, 0, 180, 0, 0, 0, 0, 0, 0, 0,
    0x10, 0, 0, 0x40, 0, 0, 0, 0, 0x10, 0, 0, 0x40, 0, 0, 0, 0,
    4, 0, 0, 0, 0, 0, 0, 0, 4, 0, 0, 0, 0, 0, 0, 0,
    0, 0x10, 0, 0, 0, 0, 0, 0,
    0x90, 0x90, 0xEB, 0xFE, 1, 2, 3, 4]

/-- The second segment takes a new frame for the page, and the code of the first one is
no longer there. -/
theorem shared_page_lost :
    ∃ elf phdrs loaded mem' pmm', ElfBinary.parse sharedPageProgram = .ok elf ∧
      elf.programHeaders = .ok phdrs ∧
      (∀ phdr ∈ phdrs, phdr.skipped = false → BelowStack phdr) ∧
      (phdrs.Pairwise fun phdr other =>
        phdr.skipped = false → other.skipped = false → ApartInMemory phdr other) ∧
      loadElf 0x1000 sharedPageProgram (fun _ => 0) hardwareTables (fewFrames 16) =
        (.ok loaded, mem', pmm') ∧
      ¬ ShowsFile sharedPageProgram phdrs mem' loaded.space.pml4 := by
  obtain ⟨loaded, mem', pmm', hload, htest⟩ := exists_loaded sharedPageProgram 16
    (P := fun s => visibleByte s.mem s.space.pml4 0x40000000 = some 0) (by decide +kernel)
  obtain ⟨elf, phdrs, -, -, -, hparse, hphdrs, -⟩ := loadElf_lays hload
  have hheaders : phdrs = [⟨1, 5, 176, 0x40000000, 0x40000000, 4, 4, 0x1000⟩,
      ⟨1, 6, 180, 0x40000010, 0x40000010, 4, 4, 0x1000⟩] :=
    programHeaders_unique (by decide +kernel) hparse hphdrs
  refine ⟨elf, phdrs, loaded, mem', pmm', hparse, hphdrs, ?_, ?_, hload, ?_⟩
  · intro phdr hphdr _
    simp only [hheaders, List.mem_cons, List.not_mem_nil, or_false] at hphdr
    rcases hphdr with rfl | rfl
    · exact ⟨by decide, by decide⟩
    · exact ⟨by decide, by decide⟩
  · rw [hheaders, List.pairwise_pair]
    rintro - - a ⟨-, hhigh⟩ ⟨hlow, -⟩
    grind
  · intro hshows
    obtain ⟨byte, hbyte, hshown⟩ := hshows ⟨1, 5, 176, 0x40000000, 0x40000000, 4, 4, 0x1000⟩
      (by simp [hheaders]) rfl 0 (by decide)
    rw [Nat.add_zero, htest, ← hbyte] at hshown
    exact absurd hshown (by decide)

end Correctness

end AuraOS.UserSpace
