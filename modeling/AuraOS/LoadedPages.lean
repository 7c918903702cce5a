import AuraOS.FrameBytes
import AuraOS.SpacePages

namespace AuraOS.UserSpace

open PathTrees PhysicalFrames PageTables VirtualAreas Syscalls ElfLoader

variable {images : List PageImage} {page pages frame offset w kernelCr3 : Nat} {image : PageImage}
  {phdrs : List Elf64ProgramHeader} {mem mem' : Mem} {s' : PageState} {elf : ElfBinary}
  {loaded : LoadedElf} {pmm : Pmm}

theorem area_fields (phdr : Elf64ProgramHeader) :
    phdr.area.start = phdr.pageStart ∧ phdr.area.size = sub64 phdr.pageEnd phdr.pageStart ∧
      phdr.area.isGuardPage = false ∧ (phdr.area.name = .elfBss ∨ phdr.area.name = .elfSegment) ∧
      ∀ entry ∈ phdr.area.populatedPages, ∃ i < phdr.eagerPages,
        entry.1 = phdr.pageStart + i * pageSize := by
  obtain ⟨hshape, hentries⟩ := foldl_insertPage_shape (List.range phdr.eagerPages)
    (fun i => phdr.pageStart + i * pageSize)
    (VmArea.new phdr.pageStart (sub64 phdr.pageEnd phdr.pageStart) (segmentProt phdr.pFlags)
      mapPrivate false
      (if phdr.eagerPageEnd = phdr.pageStart ∧ phdr.pFilesz = 0 then .elfBss else .elfSegment))
  refine ⟨congrArg VmArea.start hshape, congrArg VmArea.size hshape,
    congrArg VmArea.isGuardPage hshape, ?_, fun entry hentry => ?_⟩
  · have hname : phdr.area.name = if phdr.eagerPageEnd = phdr.pageStart ∧ phdr.pFilesz = 0 then
        .elfBss else .elfSegment := congrArg VmArea.name hshape
    split at hname
    · exact .inl hname
    · exact .inr hname
  · rcases hentries entry hentry with hnil | ⟨i, hi, heq⟩
    · cases hnil
    · exact ⟨i, List.mem_range.mp hi, heq⟩

def PageImage.byte (image : PageImage) (offset : Nat) : BitVec 8 :=
  if image.offset ≤ offset then (image.bytes[offset - image.offset]?).getD 0 else 0

/-- A byte of the page when the frame held other data: its first byte is cleared, then
the image is copied. -/
def PageImage.over (image : PageImage) (stale : Nat → BitVec 8) (offset : Nat) : BitVec 8 :=
  let below := if offset = 0 then 0 else stale offset
  if image.offset ≤ offset then (image.bytes[offset - image.offset]?).getD below else below

def PageImage.Fits (image : PageImage) : Prop :=
  image.offset + image.bytes.length ≤ pageSize

section Instances

variable (data : List (BitVec 8)) (stray : Nat → BitVec 8) (phdr : Elf64ProgramHeader)

/-- All pages that `load_elf` maps. -/
def imagePages (phdrs : List Elf64ProgramHeader) : List PageImage :=
  loadImages data stray phdrs ++ stackImages defaultUserStackTop defaultUserStackPages 1

variable {data stray phdr}

theorem mem_pagesUp {start : Nat} :
    page ∈ pagesUp start pages ↔ ∃ i < pages, page = start + i * pageSize := by
  induction pages generalizing start with
  | zero => simp [pagesUp]
  | succ pages ih =>
    rw [pagesUp, List.mem_cons, ih]
    constructor
    · rintro (rfl | ⟨i, hi, rfl⟩)
      · exact ⟨0, by omega, by omega⟩
      · exact ⟨i + 1, by omega, by rw [Nat.succ_mul]; omega⟩
    · rintro ⟨_ | i, hi, rfl⟩
      · exact .inl (by omega)
      · exact .inr ⟨i, by omega, by rw [Nat.succ_mul]; omega⟩

theorem eager_page (h : page ∈ pagesUp phdr.pageStart phdr.eagerPages) :
    page % pageSize = 0 ∧ phdr.pVaddr < page + pageSize ∧ page + pageSize < 2 ^ 64 := by
  obtain ⟨i, hi, rfl⟩ := mem_pagesUp.mp h
  have hend : phdr.eagerPageEnd ≤ phdr.pageEnd := Nat.min_le_right _ _
  grind

theorem loadImages_cases (h : image ∈ loadImages data stray phdrs) :
    ∃ phdr, image.page ∈ pagesUp phdr.pageStart phdr.eagerPages ∧
      image = segmentImage data stray phdr image.page ∧ image.page ∈ loadPages data phdrs := by
  induction phdrs with
  | nil => cases h
  | cons phdr rest ih =>
    rw [loadImages] at h
    rw [loadPages]
    cases hskipped : phdr.skipped with
    | true =>
      rw [if_pos hskipped] at h
      exact ih h
    | false =>
      simp only [hskipped, Bool.false_eq_true, if_false] at h ⊢
      cases hinvalid : phdr.invalid data with
      | true =>
        rw [if_pos hinvalid] at h
        cases h
      | false =>
        simp only [hinvalid, Bool.false_eq_true, if_false] at h ⊢
        rcases List.mem_append.mp h with h | h
        · obtain ⟨page, hpage, rfl⟩ := List.mem_map.mp h
          exact ⟨phdr, hpage, rfl, List.mem_append_left _ hpage⟩
        · obtain ⟨phdr', hpage, himage, hload⟩ := ih h
          exact ⟨phdr', hpage, himage, List.mem_append_right _ hload⟩

theorem imagePages_cases (h : image ∈ imagePages data stray phdrs) :
    (∃ phdr, image.page ∈ pagesUp phdr.pageStart phdr.eagerPages ∧
      image = segmentImage data stray phdr image.page ∧ image.page ∈ loadPages data phdrs) ∨
    ∃ j, 1 ≤ j ∧ j < 1 + defaultUserStackPages ∧
      image = ⟨sub64 defaultUserStackTop (j * pageSize % 2 ^ 64), 0, []⟩ := by
  rcases List.mem_append.mp h with h | h
  · exact .inl (loadImages_cases h)
  · exact .inr (mem_stackImages h)

theorem imagePages_private (stray : Nat → BitVec 8) {kern : KernelTables}
    (h : ∀ page ∈ loadPages data phdrs, kern.Private page) :
    ∀ image ∈ imagePages data stray phdrs, kern.Private image.page := by
  intro image himage
  rcases imagePages_cases himage with ⟨phdr, -, -, hload⟩ | ⟨j, hlo, hhi, rfl⟩
  · exact h _ hload
  · exact private_of_window (stack_page hlo hhi)

end Instances

section Laying

variable {kern : KernelTables} {root virt : Nat} {s s₁ : PageState} {tree : TableTree}

theorem allocateAndMapPage_some {writable : Bool}
    (h : s.allocateAndMapPage root virt writable = (some frame, s₁)) :
    ∃ pmm, s.pmm.allocFrame = some (frame, pmm) ∧
      PageState.mapUserPage ⟨s.mem.writeByte frame 0 0, pmm, s.allocatedFrames ++ [frame]⟩ root virt
        frame writable = (true, s₁) := by
  simp only [PageState.allocateAndMapPage] at h
  cases halloc : s.pmm.allocFrame with
  | none =>
    rw [halloc] at h
    cases h
  | some r =>
    obtain ⟨phys, pmm⟩ := r
    simp only [halloc] at h
    cases hmap : PageState.mapUserPage ⟨s.mem.writeByte phys 0 0, pmm,
      s.allocatedFrames ++ [phys]⟩ root virt phys writable with
    | mk ok after =>
      rw [hmap] at h
      cases ok with
      | false => cases h
      | true =>
        cases h
        exact ⟨pmm, rfl, hmap⟩

theorem copyBytes_congr (h : ∀ i, mem' frame i = mem frame i) (offset : Nat)
    (bytes : List (BitVec 8)) (i : Fin 512) :
    mem'.copyBytes frame offset bytes frame i = mem.copyBytes frame offset bytes frame i := by
  induction bytes generalizing offset mem mem' with
  | nil => exact h i
  | cons byte rest ih =>
    refine ih (fun j => ?_) (offset + 1)
    simp only [Mem.writeByte, setEntry_apply, h]

theorem layPage_attempt (h : OwnsPages s kern root tree) (hpriv : kern.Private image.page)
    (hmap : s.allocateAndMapPage root image.page true = (some frame, s₁)) :
    ∃ tree' tables, MapAttempt s s₁ kern root tree image.page frame true tree' tables ∧
      OwnsPages (s₁.fill frame image) kern root tree' := by
  obtain ⟨pmm, halloc, hmapped⟩ := allocateAndMapPage_some hmap
  obtain ⟨tree', tables, hattempt⟩ :=
    mapUserPage_spec h hpriv halloc (writeByte_of_ne s.mem frame 0 0) true
  simp only [hmapped] at hattempt
  have hstored : ∀ t ≠ frame, ∀ i, (s₁.fill frame image).mem t i = s₁.mem t i :=
    fun t ht i => copyBytes_of_ne ht _ _ s₁.mem i
  exact ⟨tree', tables, hattempt, (hattempt.owns.store (hattempt.mapped rfl).1 rfl hstored).owns⟩

theorem layPage_pages (h : OwnsPages s kern root tree) (hpriv : kern.Private image.page)
    (hmap : s.allocateAndMapPage root image.page true = (some frame, s₁)) :
    IsFrame frame ∧ (∃ tree', OwnsPages (s₁.fill frame image) kern root tree') ∧
      PageSet s.mem ((s.mem.writeByte frame 0 0).copyBytes frame image.offset image.bytes)
        (s₁.fill frame image).mem kern root image.page (makeEntry frame (pageFlags true)) := by
  obtain ⟨tree', tables, hattempt, howns⟩ := layPage_attempt h hpriv hmap
  obtain ⟨pmm, halloc, hmapped⟩ := allocateAndMapPage_some hmap
  have hset := (mapUserPage_pages h hpriv halloc (writeByte_of_ne s.mem frame 0 0) true).1
    (congrArg Prod.fst hmapped)
  simp only [hmapped] at hset
  obtain ⟨hnode, -⟩ := hattempt.mapped rfl
  have hstored : ∀ t ≠ frame, ∀ i, (s₁.fill frame image).mem t i = s₁.mem t i :=
    fun t ht i => copyBytes_of_ne ht _ _ s₁.mem i
  have hframe : IsFrame frame := hattempt.owns.isFrame ⟨_, hnode⟩
  -- the copy writes to the frame of a page, which is no page table
  have hsame : ∀ w, kern.Private w → pte (s₁.fill frame image).mem root w = pte s₁.mem root w := by
    intro w hw
    rw [pte, pte, walk_same hattempt.owns hw fun q t ht hlen => hstored t ?_]
    rintro rfl
    simp [tree'.unique _ _ t ht hnode, path] at hlen
  refine ⟨hframe, ⟨tree', howns⟩, fun w hw => (hsame w hw).trans (hset.entries w hw), ?_⟩
  intro w hw e he i
  rw [hsame w hw] at he
  have hcontents := hset.contents w hw e he
  by_cases heq : entryAddr e = frame
  · rw [heq] at hcontents ⊢
    exact copyBytes_congr hcontents _ _ i
  · rw [hstored _ heq, copyBytes_of_ne heq, hcontents]

theorem layPages_pages (hpriv : ∀ image ∈ images, kern.Private image.page)
    (h : OwnsPages s kern root tree) (hlaid : layPages root images s = (true, s')) :
    (∃ tree', OwnsPages s' kern root tree') ∧ ∀ w, kern.Private w →
      (∃ image ∈ images, path w = path image.page) ∧
        (∃ frame, IsFrame frame ∧ pte s'.mem root w = some (makeEntry frame (pageFlags true))) ∨
      (∀ image ∈ images, path w ≠ path image.page) ∧ pte s'.mem root w = pte s.mem root w := by
  induction images generalizing s tree with
  | nil =>
    cases hlaid
    exact ⟨⟨tree, h⟩, fun w _ => .inr ⟨nofun, rfl⟩⟩
  | cons image rest ih =>
    obtain ⟨frame, s₁, hmap, hlaid⟩ := layPages_cons hlaid
    obtain ⟨hframe, ⟨tree₁, h₁⟩, hset⟩ := layPage_pages h (hpriv image (.head _)) hmap
    obtain ⟨howns, hrest⟩ := ih (fun i hi => hpriv i (.tail _ hi)) h₁ hlaid
    refine ⟨howns, fun w hw => ?_⟩
    have hentry := hset.entries w hw
    rcases hrest w hw with ⟨⟨i, hi, hpath⟩, hpte⟩ | ⟨hnone, hpte⟩
    · exact .inl ⟨⟨i, .tail _ hi, hpath⟩, hpte⟩
    · rw [hpte]
      by_cases hpath : path w = path image.page
      · rw [if_pos hpath] at hentry
        exact .inl ⟨⟨image, .head _, hpath⟩, frame, hframe, hentry⟩
      · rw [if_neg hpath] at hentry
        refine .inr ⟨fun i hi => ?_, hentry⟩
        rcases List.mem_cons.mp hi with rfl | hi
        · exact hpath
        · exact hnone i hi

end Laying

section Bytes

variable {kern : KernelTables} {root : Nat} {s s₁ : PageState} {tree : TableTree}

def pageByte (mem : Mem) (root virt : Nat) : Option (BitVec 8) :=
  (pte mem root virt).map fun entry => readByte mem (entryAddr entry) (virt % pageSize)

def imageByte : List PageImage → Nat → Option (BitVec 8)
  | [], _ => none
  | image :: rest, virt =>
    (imageByte rest virt).or
      (if path virt = path image.page then some (image.byte (virt % pageSize)) else none)

def PageState.NextClear (s : PageState) : Prop :=
  ∀ phys pmm, s.pmm.allocFrame = some (phys, pmm) →
    ∀ offset, 0 < offset → offset < pageSize → readByte s.mem phys offset = 0

def LayClear (root : Nat) : List PageImage → PageState → Prop
  | [], _ => True
  | image :: rest, s => s.NextClear ∧
      ∀ frame s₁, s.allocateAndMapPage root image.page true = (some frame, s₁) →
        LayClear root rest (s₁.fill frame image)

theorem readByte_congr (h : ∀ i, mem' frame i = mem frame i) (offset : Nat) :
    readByte mem' frame offset = readByte mem frame offset := by
  rw [readByte, h, readByte]

theorem writeByte_clear_iff (mem : Mem) (frame : Nat) :
    (∀ i, mem.writeByte frame 0 0 frame i = 0) ↔
      ∀ offset, 0 < offset → offset < pageSize → readByte mem frame offset = 0 := by
  have hpos : 0 < pageSize := by decide
  rw [frame_clear_iff]
  constructor
  · intro h offset hne hlt
    have hbyte := h offset hlt
    rwa [readByte_writeByte mem frame 0 hpos hlt, if_neg (by omega)] at hbyte
  · intro h offset hlt
    rw [readByte_writeByte mem frame 0 hpos hlt]
    split
    · rfl
    · exact h offset (by omega) hlt

theorem over_clear {stale : Nat → BitVec 8} (h : 0 < offset → stale offset = 0) :
    image.over stale offset = image.byte offset := by
  have hbelow : (if offset = 0 then (0 : BitVec 8) else stale offset) = 0 := by
    split
    · rfl
    · exact h (by omega)
  simp only [PageImage.over, PageImage.byte, hbelow]

theorem readByte_over (hfits : image.Fits) (mem : Mem) (frame : Nat) (hlt : offset < pageSize) :
    readByte ((mem.writeByte frame 0 0).copyBytes frame image.offset image.bytes) frame offset =
      image.over (readByte mem frame) offset := by
  have hpos : 0 < pageSize := by decide
  rw [readByte_copyBytes frame image.bytes _ hfits hlt, readByte_writeByte mem frame 0 hpos hlt]
  rfl

theorem layPage_shows (h : OwnsPages s kern root tree) (hpriv : kern.Private image.page)
    (hfits : image.Fits) (hmap : s.allocateAndMapPage root image.page true = (some frame, s₁))
    (hw : kern.Private w) :
    pageByte (s₁.fill frame image).mem root w =
      if path w = path image.page then some (image.over (readByte s.mem frame) (w % pageSize))
      else pageByte s.mem root w := by
  obtain ⟨hframe, -, hset⟩ := layPage_pages h hpriv hmap
  obtain ⟨pmm, halloc, -⟩ := allocateAndMapPage_some hmap
  have hlt : w % pageSize < pageSize := Nat.mod_lt _ (by decide)
  have hentry := hset.entries w hw
  have hcontents := hset.contents w hw
  by_cases hpath : path w = path image.page
  · rw [if_pos hpath] at hentry ⊢
    have hbytes := hcontents _ hentry
    rw [entryAddr_makeEntry hframe] at hbytes
    rw [pageByte, hentry, Option.map_some, entryAddr_makeEntry hframe, readByte_congr hbytes,
      readByte_over hfits s.mem frame hlt]
  · rw [if_neg hpath] at hentry ⊢
    rw [pageByte, pageByte, hentry]
    cases he : pte s.mem root w with
    | none => rfl
    | some e =>
      -- the frame of another page is in use, so it is not the new frame
      have hne : entryAddr e ≠ frame := fun heq =>
        h.not_free ⟨_, heq ▸ node_of_pte h hw he⟩ (allocFrame_spec halloc).free
      have hbytes : ∀ i, (s₁.fill frame image).mem (entryAddr e) i = s.mem (entryAddr e) i := by
        intro i
        rw [hcontents e (hentry.trans he), copyBytes_of_ne hne]
        exact setEntry_of_ne hne _ i _
      rw [Option.map_some, Option.map_some, readByte_congr hbytes]

theorem layPage_bytes (h : OwnsPages s kern root tree) (hpriv : kern.Private image.page)
    (hfits : image.Fits) (hclear : s.NextClear)
    (hmap : s.allocateAndMapPage root image.page true = (some frame, s₁)) (hw : kern.Private w) :
    pageByte (s₁.fill frame image).mem root w =
      if path w = path image.page then some (image.byte (w % pageSize))
      else pageByte s.mem root w := by
  obtain ⟨pmm, halloc, -⟩ := allocateAndMapPage_some hmap
  rw [layPage_shows h hpriv hfits hmap hw, over_clear fun hpos =>
    hclear frame pmm halloc _ hpos (Nat.mod_lt _ (by decide))]

theorem layPages_bytes (hpriv : ∀ image ∈ images, kern.Private image.page)
    (hfits : ∀ image ∈ images, image.Fits) (h : OwnsPages s kern root tree)
    (hclear : LayClear root images s) (hlaid : layPages root images s = (true, s'))
    (hw : kern.Private w) :
    pageByte s'.mem root w = (imageByte images w).or (pageByte s.mem root w) := by
  induction images generalizing s tree with
  | nil =>
    cases hlaid
    rfl
  | cons image rest ih =>
    obtain ⟨hnext, hrest⟩ := hclear
    obtain ⟨frame, s₁, hmap, hlaid⟩ := layPages_cons hlaid
    have hfirst := hpriv image (.head _)
    obtain ⟨-, ⟨tree₁, h₁⟩, -⟩ := layPage_pages h hfirst hmap
    rw [ih (fun i hi => hpriv i (.tail _ hi))
      (fun i hi => hfits i (.tail _ hi)) h₁ (hrest frame s₁ hmap) hlaid,
      layPage_bytes h hfirst (hfits image (.head _)) hnext hmap hw, imageByte,
      Option.or_assoc]
    congr 1
    split <;> rfl

end Bytes

section Load

/-- The areas after `add_vma`. -/
def registerArea (vmas : List VmArea) (area : VmArea) : List VmArea :=
  if area.size = 0 ∨ area.start % pageSize ≠ 0 then vmas
  else if vmas.any (·.overlaps area.start area.size) then vmas
  else vmas ++ [area]

theorem addVma_snd (s : SpaceState) (area : VmArea) :
    (s.addVma area).2 = s.setVmas (registerArea s.space.vmas area) := by
  simp only [SpaceState.addVma, registerArea]
  split
  · rfl
  · split <;> rfl

def loadAreas (phdrs : List Elf64ProgramHeader) (vmas : List VmArea) : List VmArea :=
  (phdrs.filter (!·.skipped)).foldl (fun vmas phdr => registerArea vmas phdr.area) vmas

def stackGuard : VmArea :=
  VmArea.new
    (sub64 (sub64 defaultUserStackTop (defaultUserStackPages * pageSize % 2 ^ 64)) pageSize)
    pageSize protNone (mapPrivate ||| mapAnonymous) true .guard

def stackArea : VmArea :=
  (List.range defaultUserStackPages).foldl
    (fun area i => area.insertPage (sub64 defaultUserStackTop ((i + 1) * pageSize % 2 ^ 64)) 0)
    (VmArea.new (sub64 defaultUserStackTop (defaultUserStackPages * pageSize % 2 ^ 64))
      (defaultUserStackPages * pageSize % 2 ^ 64) (protRead ||| protWrite)
      (mapPrivate ||| mapAnonymous) false .stack)

/-- All areas that `load_elf` leaves in the new space. -/
def imageAreas (phdrs : List Elf64ProgramHeader) : List VmArea :=
  registerArea (registerArea (loadAreas phdrs []) stackGuard) stackArea

variable {data : List (BitVec 8)} {stray : Nat → BitVec 8} {s s' : SpaceState}

theorem loadSegment_ok_iff {phdr : Elf64ProgramHeader} :
    loadSegment data stray phdr s = (.ok (), s') ↔ phdr.invalid data = false ∧ ∃ pages,
      layPages s.space.pml4 ((pagesUp phdr.pageStart phdr.eagerPages).map
        (segmentImage data stray phdr)) s.pages = (true, pages) ∧
      s' = (s.setPages pages).setVmas (registerArea s.space.vmas phdr.area) := by
  rw [loadSegment]
  cases phdr.invalid data with
  | true => simp
  | false =>
    simp only [mapEager_eq, addVma_snd, Bool.false_eq_true, if_false, true_and]
    generalize layPages s.space.pml4 _ s.pages = result
    obtain ⟨_ | _, pages⟩ := result
    · simp
    · simp [SpaceState.setPages, eq_comm]

theorem layPages_append_iff {root : Nat} {images rest : List PageImage} {s s' : PageState} :
    layPages root (images ++ rest) s = (true, s') ↔
      ∃ s₁, layPages root images s = (true, s₁) ∧ layPages root rest s₁ = (true, s') := by
  rw [layPages_append]
  generalize layPages root images s = result
  obtain ⟨_ | _, s₁⟩ := result
  · simp
  · simp

def loadCounts (phdrs : List Elf64ProgramHeader) (counts : Nat × Nat) : Nat × Nat :=
  (phdrs.filter (!·.skipped)).foldl
    (fun counts phdr => (counts.1 + 1, add64 counts.2 phdr.pMemsz)) counts

theorem loadCounts_fst (phdrs : List Elf64ProgramHeader) (counts : Nat × Nat) :
    (loadCounts phdrs counts).1 = counts.1 + (phdrs.filter (!·.skipped)).length := by
  rw [loadCounts]
  induction phdrs.filter (!·.skipped) generalizing counts with
  | nil => rfl
  | cons phdr rest ih =>
    grind

theorem loadSegments_ok_iff {segmentsLoaded totalBytes : Nat} {counts : Nat × Nat} :
    loadSegments data stray phdrs segmentsLoaded totalBytes s = (.ok counts, s') ↔
      (∀ phdr ∈ phdrs, phdr.skipped = false → phdr.invalid data = false) ∧
      counts = loadCounts phdrs (segmentsLoaded, totalBytes) ∧ ∃ pages,
        layPages s.space.pml4 (loadImages data stray phdrs) s.pages = (true, pages) ∧
        s' = (s.setPages pages).setVmas (loadAreas phdrs s.space.vmas) := by
  induction phdrs generalizing segmentsLoaded totalBytes s with
  | nil =>
    constructor
    · rintro ⟨⟩
      exact ⟨nofun, rfl, _, rfl, rfl⟩
    · rintro ⟨-, rfl, pages, ⟨⟩, rfl⟩
      rfl
  | cons phdr rest ih =>
    rw [loadSegments, loadImages, loadAreas, loadCounts, List.filter_cons, List.forall_mem_cons]
    cases hskipped : phdr.skipped with
    | true => simpa [loadCounts, loadAreas] using ih
    | false =>
      simp only [Bool.false_eq_true, if_false]
      constructor
      · intro h
        split at h
        · cases h
        rename_i s₁ hload
        obtain ⟨hvalid, pages₁, hfirst, rfl⟩ := loadSegment_ok_iff.mp hload
        obtain ⟨hrest, rfl, pages, hothers, rfl⟩ := ih.mp h
        refine ⟨⟨fun _ => hvalid, hrest⟩, rfl, pages, ?_, rfl⟩
        rw [hvalid]
        exact layPages_append_iff.mpr ⟨pages₁, hfirst, hothers⟩
      · rintro ⟨⟨hvalid, hrest⟩, rfl, pages, hlaid, rfl⟩
        rw [hvalid trivial] at hlaid
        obtain ⟨pages₁, hfirst, hothers⟩ := layPages_append_iff.mp hlaid
        rw [loadSegment_ok_iff.mpr ⟨hvalid trivial, pages₁, hfirst, rfl⟩]
        exact ih.mpr ⟨hrest, rfl, pages, hothers, rfl⟩

theorem allocateUserStack_eq (s : SpaceState) :
    s.allocateUserStack defaultUserStackTop defaultUserStackPages =
      match layPages s.space.pml4 (stackImages defaultUserStackTop defaultUserStackPages 1)
        s.pages with
      | (false, pages) => (false, (s.addVma stackGuard).2.setPages pages)
      | (true, pages) => (true, (((s.addVma stackGuard).2.setPages pages).addVma stackArea).2) := by
  rw [← mapStack_eq, ← (addVma_sameSpace s stackGuard).pml4, ← addVma_pages s stackGuard]
  rfl

theorem buildImage_ok_iff :
    buildImage elf phdrs stray s = (.ok loaded, s') ↔
      (∀ phdr ∈ phdrs, phdr.skipped = false → phdr.invalid elf.data = false) ∧
      (∃ phdr ∈ phdrs, phdr.skipped = false) ∧ ∃ pages,
        layPages s.space.pml4 (imagePages elf.data stray phdrs) s.pages = (true, pages) ∧
        s' = (s.setPages pages).setVmas (registerArea (registerArea (loadAreas phdrs s.space.vmas)
          stackGuard) stackArea) ∧
        loaded = ⟨elf.entryPoint, defaultUserStackTop, s'.space, (loadCounts phdrs (0, 0)).1,
          (loadCounts phdrs (0, 0)).2⟩ := by
  have hsome : (loadCounts phdrs (0, 0)).1 ≠ 0 ↔ ∃ phdr ∈ phdrs, phdr.skipped = false := by
    rw [loadCounts_fst, Nat.zero_add, Nat.ne_zero_iff_zero_lt, List.length_pos_iff_exists_mem]
    simp
  rw [buildImage, ← hsome]
  constructor
  · intro h
    cases hload : loadSegments elf.data stray phdrs 0 0 s with
    | mk result s₁ =>
    rw [hload] at h
    obtain _ | counts := result
    · cases h
    obtain ⟨hvalid, rfl, pages₁, hsegments, rfl⟩ := loadSegments_ok_iff.mp hload
    simp only [allocateUserStack_eq] at h
    split at h
    · cases h
    rename_i hcount
    refine ⟨hvalid, hcount, ?_⟩
    generalize hstack : layPages _ (stackImages _ _ _) _ = result at h
    obtain ⟨_ | _, pages⟩ := result
    · cases h
    cases h
    refine ⟨pages, layPages_append_iff.mpr ⟨pages₁, hsegments, hstack⟩, ?_, rfl⟩
    rw [addVma_snd, addVma_snd]
    rfl
  · rintro ⟨hvalid, hcount, pages, hlaid, rfl, rfl⟩
    obtain ⟨pages₁, hsegments, hstack⟩ := layPages_append_iff.mp hlaid
    have hstack : layPages ((s.setPages pages₁).setVmas (loadAreas phdrs s.space.vmas)).space.pml4
        (stackImages defaultUserStackTop defaultUserStackPages 1)
        ((s.setPages pages₁).setVmas (loadAreas phdrs s.space.vmas)).pages = (true, pages) := hstack
    rw [loadSegments_ok_iff.mpr ⟨hvalid, rfl, pages₁, hsegments, rfl⟩]
    simp only [if_neg hcount, allocateUserStack_eq, hstack, addVma_snd]
    rfl

theorem parse_ok {data : List (BitVec 8)} (h : ElfBinary.parse data = .ok elf) :
    elf = ⟨data, readHeader data⟩ := by
  simp only [ElfBinary.parse] at h
  repeat' split at h
  all_goals cases h
  rfl

theorem loadElf_ok {pmm' : Pmm}
    (h : loadElf kernelCr3 data stray mem pmm = (.ok loaded, mem', pmm')) :
    ∃ elf phdrs space mem₁ pmm₁ s, ElfBinary.parse data = .ok elf ∧ elf.programHeaders = .ok phdrs ∧
      AddressSpace.new kernelCr3 mem pmm = (some space, mem₁, pmm₁) ∧
      buildImage elf phdrs stray ⟨mem₁, pmm₁, space⟩ = (.ok loaded, s) ∧ s.mem = mem' ∧
      s.pmm = pmm' := by
  simp only [loadElf] at h
  split at h
  · cases h
  rename_i elf hparse
  split at h
  · cases h
  rename_i phdrs hphdrs
  split at h
  · cases h
  rename_i space mem₁ pmm₁ hnew
  split at h
  · cases h
  rename_i loaded' s hbuild
  cases h
  exact ⟨elf, phdrs, space, mem₁, pmm₁, s, hparse, hphdrs, hnew, hbuild, rfl, rfl⟩

theorem loadElf_lays {pmm' : Pmm}
    (h : loadElf kernelCr3 data stray mem pmm = (.ok loaded, mem', pmm')) :
    ∃ elf phdrs space mem₁ pmm₁, ElfBinary.parse data = .ok elf ∧ elf.programHeaders = .ok phdrs ∧
      AddressSpace.new kernelCr3 mem pmm = (some space, mem₁, pmm₁) ∧
      SameSpace space loaded.space ∧ loaded.space.vmas = imageAreas phdrs ∧
      (∀ phdr ∈ phdrs, phdr.skipped = false → phdr.invalid data = false) ∧
      layPages space.pml4 (imagePages data stray phdrs) ⟨mem₁, pmm₁, space.allocatedFrames⟩ =
        (true, ⟨mem', pmm', loaded.space.allocatedFrames⟩) := by
  obtain ⟨elf, phdrs, space, mem₁, pmm₁, s, hparse, hphdrs, hnew, hbuild, rfl, rfl⟩ := loadElf_ok h
  obtain ⟨hvalid, -, pages, hlaid, rfl, rfl⟩ := buildImage_ok_iff.mp hbuild
  rw [parse_ok hparse] at hvalid hlaid
  rw [(new_areas hnew).2]
  exact ⟨elf, phdrs, space, mem₁, pmm₁, hparse, hphdrs, hnew, ⟨rfl, rfl, rfl⟩, rfl, hvalid, hlaid⟩

theorem programHeaders_unique {phdrs' : List Elf64ProgramHeader}
    (hread : ElfBinary.programHeaders ⟨data, readHeader data⟩ = .ok phdrs')
    (hparse : ElfBinary.parse data = .ok elf) (hphdrs : elf.programHeaders = .ok phdrs) :
    phdrs = phdrs' := by
  rw [parse_ok hparse, hread] at hphdrs
  cases hphdrs
  rfl

theorem exists_loaded (data : List (BitVec 8)) (n : Nat) {P : SpaceState → Prop} [DecidablePred P]
    (h : let r := loadElf 0x1000 data (fun _ => 0) hardwareTables (fewFrames n)
      (r.1.toOption.any fun loaded => P ⟨r.2.1, r.2.2, loaded.space⟩) = true) :
    ∃ loaded mem' pmm', loadElf 0x1000 data (fun _ => 0) hardwareTables (fewFrames n) =
      (.ok loaded, mem', pmm') ∧ P ⟨mem', pmm', loaded.space⟩ := by
  generalize loadElf 0x1000 data (fun _ => 0) hardwareTables (fewFrames n) = result at h ⊢
  obtain ⟨_ | loaded, mem', pmm'⟩ := result
  · cases h
  · exact ⟨loaded, mem', pmm', rfl, of_decide_eq_true h⟩

theorem loadElf_of_isSome (h : (loadElf kernelCr3 data stray mem pmm).1.toOption.isSome = true) :
    ∃ loaded mem' pmm', loadElf kernelCr3 data stray mem pmm = (.ok loaded, mem', pmm') := by
  generalize loadElf kernelCr3 data stray mem pmm = result at h ⊢
  obtain ⟨_ | loaded, mem', pmm'⟩ := result
  · cases h
  · exact ⟨loaded, mem', pmm', rfl⟩

/-- A program of one segment with the given flags: four bytes of code at 0x40000010 and
two pages of memory. -/
def programWith (flags : BitVec 8) : List (BitVec 8) :=
  [0x7F, 0x45, 0x4C, 0x46, 2, 1, 1, 0, 0, 0, 0, 0, 0, 0, 0, 0,
    2, 0, 0x3E, 0, 1, 0, 0, 0, 0x10, 0, 0, 0x40, 0, 0, 0, 0,
    64, 0, 0, 0, 0, 0, 0, 0, 0, 0, 0, 0, 0, 0, 0, 0,
    0, 0, 0, 0, 64, 0, 56, 0, 1, 0, 0, 0, 0, 0, 0, 0,
    1, 0, 0, 0, flags, 0, 0, 0, 120, 0, 0, 0, 0, 0, 0, 0,
    0x10, 0, 0, 0x40, 0, 0, 0, 0, 0x10, 0, 0, 0x40, 0, 0, 0, 0,
    4, 0, 0, 0, 0, 0, 0, 0, 0, 0x20, 0, 0, 0, 0, 0, 0,
    0, 0x10, 0, 0, 0, 0, 0, 0, 0x90, 0x90, 0xEB, 0xFE]

def sampleProgram : List (BitVec 8) :=
  programWith 5

end Load

end AuraOS.UserSpace
