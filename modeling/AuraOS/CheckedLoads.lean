import AuraOS.CheckedAreas
import AuraOS.FreshPages

/-!
`load_elf` with every sum, difference and product checked, and every copy into a
frame checked against the file and the frame.  It returns exactly where the loader
computes without overflow, and then it is the loader.
-/

namespace AuraOS.UserSpace

open CheckedWords PhysicalFrames PageTables VirtualAreas ElfLoader

variable {x segmentsLoaded totalBytes : Nat} {s s' : SpaceState} {elf : ElfBinary}
  {phdrs : List Elf64ProgramHeader}

section Segments

/-- `(x + PAGE_SIZE - 1) / PAGE_SIZE * PAGE_SIZE`, from left to right. -/
def checkedPageUp (x : Nat) : Option Nat := do
  let above ← checkedAdd 64 x pageSize
  let last ← checkedSub above 1
  checkedMul 64 (last / pageSize) pageSize

/-- `copy_nonoverlapping` from the file to a frame. -/
def checkedCopy (data : List (BitVec 8)) (source frame dest len : Nat) (mem : Mem) : Option Mem :=
  require (source + len ≤ data.length ∧ dest + len ≤ pageSize)
    (mem.copyBytes frame dest ((data.drop source).take len))

variable (data : List (BitVec 8)) (phdr : Elf64ProgramHeader)

def checkedCopySegment (fileDataEnd page frame : Nat) (mem : Mem) : Option Mem := do
  let pageStop ← checkedAdd 64 page pageSize
  let overlapStart := max page phdr.pVaddr
  let overlapEnd := min pageStop fileDataEnd
  if overlapStart < overlapEnd then
    let dest ← checkedSub overlapStart page
    let behind ← checkedSub overlapStart phdr.pVaddr
    let source ← checkedAdd 64 phdr.pOffset behind
    let len ← checkedSub overlapEnd overlapStart
    checkedCopy data source frame dest len mem
  else some mem

def checkedMapEager (fileDataEnd pml4 : Nat) : Nat → Nat → PageState → Option (Bool × PageState)
  | 0, _, s => some (true, s)
  | pages + 1, page, s =>
    match s.allocateAndMapPage pml4 page true with
    | (none, s) => some (false, s)
    | (some frame, s) => do
        let mem ← checkedCopySegment data phdr fileDataEnd page frame s.mem
        let next ← checkedAdd 64 page pageSize
        checkedMapEager fileDataEnd pml4 pages next { s with mem := mem }

def segmentArea (size eagerPageEnd : Nat) : VmArea :=
  (List.range ((eagerPageEnd - phdr.pageStart) / pageSize)).foldl
    (fun area i => area.insertPage (phdr.pageStart + i * pageSize) 0)
    (VmArea.new phdr.pageStart size (segmentProt phdr.pFlags) mapPrivate false
      (if eagerPageEnd = phdr.pageStart ∧ phdr.pFilesz = 0 then .elfBss else .elfSegment))

def checkedEagerEnd (fileDataEnd : Nat) : Option Nat :=
  if 0 < phdr.pFilesz then checkedPageUp fileDataEnd else some phdr.pageStart

def checkedDeferred (eagerPageEnd pageEnd : Nat) : Option Nat :=
  if eagerPageEnd < pageEnd then (checkedSub pageEnd eagerPageEnd).map (· / pageSize) else some 0

def checkedLoadSegment (s : SpaceState) : Option (Except ElfError Unit × SpaceState) :=
  if phdr.pMemsz < phdr.pFilesz then some (.error .invalidProgramHeaders, s)
  else do
    let fileEnd ← checkedAdd 64 phdr.pOffset phdr.pFilesz
    if data.length < fileEnd then some (.error .invalidProgramHeaders, s)
    else
      let memEnd ← checkedAdd 64 phdr.pVaddr phdr.pMemsz
      let pageEnd ← checkedPageUp memEnd
      let fileDataEnd ← checkedAdd 64 phdr.pVaddr phdr.pFilesz
      let eager ← checkedEagerEnd phdr fileDataEnd
      let eagerPageEnd := min eager pageEnd
      match ← checkedMapEager data phdr fileDataEnd s.space.pml4
          ((eagerPageEnd - phdr.pageStart) / pageSize) phdr.pageStart s.pages with
      | (false, pages) => some (.error .segmentMappingFailed, s.setPages pages)
      | (true, pages) =>
        let _deferred ← checkedDeferred eagerPageEnd pageEnd
        let size ← checkedSub pageEnd phdr.pageStart
        let added ← (s.setPages pages).checkedAddVma (segmentArea phdr size eagerPageEnd)
        some (.ok (), added.2)

end Segments

def checkedLoadSegments (data : List (BitVec 8)) : List Elf64ProgramHeader → Nat → Nat →
    SpaceState → Option (Except ElfError (Nat × Nat) × SpaceState)
  | [], segmentsLoaded, totalBytes, s => some (.ok (segmentsLoaded, totalBytes), s)
  | phdr :: rest, segmentsLoaded, totalBytes, s =>
    if phdr.skipped then checkedLoadSegments data rest segmentsLoaded totalBytes s
    else do
      match ← checkedLoadSegment data phdr s with
      | (.error e, s) => some (.error e, s)
      | (.ok (), s) =>
        let segmentsLoaded ← checkedAdd 64 segmentsLoaded 1
        let totalBytes ← checkedAdd 64 totalBytes phdr.pMemsz
        checkedLoadSegments data rest segmentsLoaded totalBytes s

section Stack

/-- The address of page `i` below the top. -/
def checkedStackPage (top i : Nat) : Option Nat := do
  let offset ← checkedMul 64 i pageSize
  checkedSub top offset

def checkedMapStack (pml4 top : Nat) : Nat → Nat → PageState → Option (Bool × PageState)
  | 0, _, s => some (true, s)
  | pages + 1, i, s => do
      let page ← checkedStackPage top i
      match s.allocateAndMapPage pml4 page true with
      | (none, s) => some (false, s)
      | (some _, s) => checkedMapStack pml4 top pages (i + 1) s

def SpaceState.checkedAllocateUserStack (s : SpaceState) (top numPages : Nat) :
    Option (Bool × SpaceState) := do
  let stackSize ← checkedMul 64 numPages pageSize
  let stackBase ← checkedSub top stackSize
  let guardBase ← checkedSub stackBase pageSize
  let guarded ← s.checkedAddVma (VmArea.new guardBase pageSize protNone
    (mapPrivate ||| mapAnonymous) true .guard)
  match ← checkedMapStack guarded.2.space.pml4 top numPages 1 guarded.2.pages with
  | (false, pages) => some (false, guarded.2.setPages pages)
  | (true, pages) =>
    let area ← (List.range numPages).foldlM
      (fun area i => (checkedStackPage top (i + 1)).map fun page => area.insertPage page 0)
      (VmArea.new stackBase stackSize (protRead ||| protWrite) (mapPrivate ||| mapAnonymous)
        false .stack)
    let added ← (guarded.2.setPages pages).checkedAddVma area
    some (true, added.2)

end Stack

/-- `program_headers`, with the reads checked against the file. -/
def checkedProgramHeaders (elf : ElfBinary) : Option (Except ElfError (List Elf64ProgramHeader)) :=
  let phoff := elf.header.phoff
  let phentsize := elf.header.phentsize
  let phnum := elf.header.phnum
  if phnum = 0 then some (.ok [])
  else if phentsize < programHeaderSize then some (.error .invalidProgramHeaders)
  else
    -- checked in the source too, as errors of their own
    match (checkedMul 64 phnum phentsize).bind (checkedAdd 64 phoff) with
    | none => some (.error .invalidProgramHeaders)
    | some requiredLen =>
      if elf.data.length < requiredLen then some (.error .invalidProgramHeaders)
      else do
        let headers ← (List.range phnum).mapM fun i => do
          let behind ← checkedMul 64 i phentsize
          let offset ← checkedAdd 64 phoff behind
          require (offset + programHeaderSize ≤ elf.data.length) (readProgramHeader elf.data offset)
        some (.ok headers)

def checkedBuildImage (elf : ElfBinary) (phdrs : List Elf64ProgramHeader) (s : SpaceState) :
    Option (Except ElfError LoadedElf × SpaceState) := do
  match ← checkedLoadSegments elf.data phdrs 0 0 s with
  | (.error e, s) => some (.error e, s)
  | (.ok (segmentsLoaded, totalBytes), s) =>
    if segmentsLoaded = 0 then some (.error .noLoadableSegments, s)
    else
      match ← s.checkedAllocateUserStack defaultUserStackTop defaultUserStackPages with
      | (false, s) => some (.error .segmentMappingFailed, s)
      | (true, s) =>
        some (.ok ⟨elf.entryPoint, defaultUserStackTop, s.space, segmentsLoaded, totalBytes⟩, s)

/-- `load_elf`; `none` where an operation overflows or a copy leaves its range. -/
def checkedLoadElf (kernelCr3 : Nat) (data : List (BitVec 8)) (mem : Mem) (pmm : Pmm) :
    Option (Except ElfError LoadedElf × Mem × Pmm) :=
  match ElfBinary.parse data with
  | .error e => some (.error e, mem, pmm)
  | .ok elf => do
      match ← checkedProgramHeaders elf with
      | .error e => some (.error e, mem, pmm)
      | .ok phdrs =>
        match AddressSpace.new kernelCr3 mem pmm with
        | (none, mem, pmm) => some (.error .addressSpaceAllocationFailed, mem, pmm)
        | (some space, mem, pmm) =>
          match ← checkedBuildImage elf phdrs ⟨mem, pmm, space⟩ with
          | (.error e, s) => some (.error e, s.mem, s.space.drop s.pmm)
          | (.ok loaded, s) => some (.ok loaded, s.mem, s.pmm)

section Exact

theorem checkedPageUp_of_lt (h : x + pageSize < 2 ^ 64) :
    checkedPageUp x = some (add64 x (pageSize - 1) / pageSize * pageSize) := by
  have hlast : x + pageSize - 1 = add64 x (pageSize - 1) := by
    grind
  have hword : add64 x (pageSize - 1) / pageSize * pageSize < 2 ^ 64 := by
    grind
  simp only [checkedPageUp, checkedAdd_of_lt h, Option.bind_eq_bind, Option.bind_some,
    checkedSub_of_le (show 1 ≤ x + pageSize by grind), hlast,
    checkedMul_of_lt hword]

theorem checkedPageUp_of_le (h : 2 ^ 64 ≤ x + pageSize) : checkedPageUp x = none := by
  simp only [checkedPageUp, checkedAdd_of_le h, Option.bind_eq_bind, Option.bind_none]

variable {data : List (BitVec 8)} (stray : Nat → BitVec 8) {phdr : Elf64ProgramHeader}

theorem take_drop_eq_sourceBytes {source len : Nat} (hword : source + len < 2 ^ 64)
    (h : source + len ≤ data.length) :
    (data.drop source).take len =
      (List.range len).map fun k => sourceByte data stray (add64 source k) := by
  apply List.ext_getElem
  · grind
  · intro k hk _
    have hlt : k < len := by
      grind
    have hin : source + k < data.length := by omega
    have hadd : add64 source k = source + k := add64_eq (by omega)
    simp only [List.getElem_take, List.getElem_drop, List.getElem_map, List.getElem_range, hadd,
      sourceByte, if_pos hin, List.getD_eq_getElem?_getD, List.getElem?_eq_getElem hin,
      Option.getD_some]

theorem checkedCopySegment_eq (hoffset : phdr.pOffset + phdr.pFilesz < 2 ^ 64)
    (hfile : phdr.pOffset + phdr.pFilesz ≤ data.length) (hend : phdr.pVaddr + phdr.pFilesz < 2 ^ 64)
    {page : Nat} (hpage : page + pageSize < 2 ^ 64) (frame : Nat) (mem : Mem) :
    checkedCopySegment data phdr (phdr.pVaddr + phdr.pFilesz) page frame mem =
      some (copySegment data stray phdr page frame mem) := by
  have hstop : add64 page pageSize = page + pageSize := add64_eq hpage
  have hdata : phdr.fileDataEnd = phdr.pVaddr + phdr.pFilesz := add64_eq hend
  simp only [checkedCopySegment, copySegment, checkedAdd_of_lt hpage, hstop, hdata,
    Option.bind_eq_bind, Option.bind_some]
  generalize hfirst : max page phdr.pVaddr = first
  generalize hlast : min (page + pageSize) (phdr.pVaddr + phdr.pFilesz) = last
  split
  · rename_i hoverlap
    have hadd : add64 phdr.pOffset (first - phdr.pVaddr) = phdr.pOffset + (first - phdr.pVaddr) :=
      add64_eq (by omega)
    rw [checkedSub_of_le (by omega), checkedSub_of_le (by omega), checkedSub_of_le (by omega),
      Option.bind_some, Option.bind_some, checkedAdd_of_lt (by omega), Option.bind_some,
      Option.bind_some, checkedCopy, require_of ⟨by omega, by omega⟩, hadd,
      take_drop_eq_sourceBytes stray (by omega) (by omega)]
  · rfl

theorem checkedMapEager_eq (hoffset : phdr.pOffset + phdr.pFilesz < 2 ^ 64)
    (hfile : phdr.pOffset + phdr.pFilesz ≤ data.length) (hend : phdr.pVaddr + phdr.pFilesz < 2 ^ 64)
    (pml4 pages page : Nat) (hpages : page + pages * pageSize < 2 ^ 64) (s : PageState) :
    checkedMapEager data phdr (phdr.pVaddr + phdr.pFilesz) pml4 pages page s =
      some (mapEager data stray phdr pml4 pages page s) := by
  induction pages generalizing page s with
  | zero => rfl
  | succ pages ih =>
    have hpage : page + pageSize < 2 ^ 64 := by
      grind
    simp only [checkedMapEager, mapEager]
    cases s.allocateAndMapPage pml4 page true with
    | mk frame s₁ =>
    cases frame with
    | none => rfl
    | some frame =>
      simp only [checkedCopySegment_eq stray hoffset hfile hend hpage, checkedAdd_of_lt hpage,
        Option.bind_eq_bind, Option.bind_some]
      exact ih (page + pageSize) (by grind) _

/-- The sums of a segment are words, as far as its two checks let them be computed. -/
def ExactSegment (data : List (BitVec 8)) (phdr : Elf64ProgramHeader) : Prop :=
  phdr.pFilesz ≤ phdr.pMemsz → phdr.pOffset + phdr.pFilesz < 2 ^ 64 ∧
    (phdr.pOffset + phdr.pFilesz ≤ data.length → phdr.pVaddr + phdr.pMemsz + pageSize < 2 ^ 64)

theorem pageEnd_bounds (h : phdr.pVaddr + phdr.pMemsz + pageSize < 2 ^ 64) :
    phdr.pageStart ≤ phdr.pageEnd ∧ phdr.pageEnd < 2 ^ 64 := by
  grind

theorem area_endsExactly (h : phdr.pVaddr + phdr.pMemsz + pageSize < 2 ^ 64) :
    EndsExactly phdr.area := by
  obtain ⟨hle, hlt⟩ := pageEnd_bounds h
  obtain ⟨hstart, hsize, -⟩ := area_fields phdr
  rw [EndsExactly, hstart, hsize, sub64_eq hle hlt]
  omega

theorem checkedLoadSegment_of_not (h : ¬ ExactSegment data phdr) (s : SpaceState) :
    checkedLoadSegment data phdr s = none := by
  simp only [ExactSegment, Classical.not_imp] at h
  obtain ⟨hsizes, hsums⟩ := h
  rw [checkedLoadSegment, if_neg (Nat.not_lt.mpr hsizes)]
  by_cases hoffset : phdr.pOffset + phdr.pFilesz < 2 ^ 64
  · have hlate : phdr.pOffset + phdr.pFilesz ≤ data.length ∧
        2 ^ 64 ≤ phdr.pVaddr + phdr.pMemsz + pageSize := by
      simp only [hoffset, true_and, Classical.not_imp, Nat.not_lt] at hsums
      exact hsums
    rw [checkedAdd_of_lt hoffset, Option.bind_eq_bind, Option.bind_some,
      if_neg (Nat.not_lt.mpr hlate.1)]
    by_cases hmem : phdr.pVaddr + phdr.pMemsz < 2 ^ 64
    · rw [checkedAdd_of_lt hmem, Option.bind_eq_bind, Option.bind_some,
        checkedPageUp_of_le hlate.2, Option.bind_eq_bind, Option.bind_none]
    · rw [checkedAdd_of_le (Nat.not_lt.mp hmem), Option.bind_eq_bind, Option.bind_none]
  · rw [checkedAdd_of_le (Nat.not_lt.mp hoffset), Option.bind_eq_bind, Option.bind_none]

theorem checkedEagerEnd_eq (hsizes : phdr.pFilesz ≤ phdr.pMemsz)
    (h : phdr.pVaddr + phdr.pMemsz + pageSize < 2 ^ 64) :
    checkedEagerEnd phdr (phdr.pVaddr + phdr.pFilesz) =
      some (if 0 < phdr.pFilesz then add64 phdr.fileDataEnd (pageSize - 1) / pageSize * pageSize
        else phdr.pageStart) := by
  have hdata : phdr.fileDataEnd = phdr.pVaddr + phdr.pFilesz := add64_eq (by omega)
  rw [checkedEagerEnd]
  split
  · rw [checkedPageUp_of_lt (by omega), hdata]
  · rfl

theorem exists_checkedDeferred {eagerPageEnd pageEnd : Nat} (h : eagerPageEnd ≤ pageEnd) :
    ∃ count, checkedDeferred eagerPageEnd pageEnd = some count := by
  rw [checkedDeferred, checkedSub_of_le h]
  split
  · exact ⟨_, rfl⟩
  · exact ⟨0, rfl⟩

theorem checkedLoadSegment_eq (h : ExactSegment data phdr)
    (hareas : ∀ area ∈ s.space.vmas, EndsExactly area) :
    checkedLoadSegment data phdr s = some (loadSegment data stray phdr s) := by
  rw [checkedLoadSegment, loadSegment, Elf64ProgramHeader.invalid]
  by_cases hsizes : phdr.pMemsz < phdr.pFilesz
  · simp [hsizes]
  obtain ⟨hoffset, hmem⟩ := h (Nat.not_lt.mp hsizes)
  have hadd : add64 phdr.pOffset phdr.pFilesz = phdr.pOffset + phdr.pFilesz := add64_eq hoffset
  rw [if_neg hsizes, checkedAdd_of_lt hoffset, Option.bind_eq_bind, Option.bind_some, hadd]
  by_cases hfile : data.length < phdr.pOffset + phdr.pFilesz
  · simp [hfile]
  have hend := hmem (Nat.not_lt.mp hfile)
  obtain ⟨hle, hlt⟩ := pageEnd_bounds hend
  have hpageEnd : checkedPageUp (phdr.pVaddr + phdr.pMemsz) = some phdr.pageEnd := by
    rw [checkedPageUp_of_lt hend, Elf64ProgramHeader.pageEnd]
    congr 4
    exact (add64_eq (by omega)).symm
  have heager : phdr.eagerPageEnd ≤ phdr.pageEnd := Nat.min_le_right _ _
  have hpages : phdr.pageStart + phdr.eagerPages * pageSize < 2 ^ 64 := by
    grind
  obtain ⟨count, hdeferred⟩ := exists_checkedDeferred heager
  have hinvalid : (decide (phdr.pMemsz < phdr.pFilesz) ||
      decide (data.length < phdr.pOffset + phdr.pFilesz)) = false := by
    simp [hsizes, hfile]
  simp only [if_neg hfile, hinvalid, Bool.false_eq_true, if_false, Option.bind_eq_bind,
    checkedAdd_of_lt (show phdr.pVaddr + phdr.pMemsz < 2 ^ 64 by omega), Option.bind_some, hpageEnd,
    checkedAdd_of_lt (show phdr.pVaddr + phdr.pFilesz < 2 ^ 64 by omega),
    checkedEagerEnd_eq (Nat.not_lt.mp hsizes) hend]
  change (checkedMapEager data phdr (phdr.pVaddr + phdr.pFilesz) s.space.pml4 phdr.eagerPages
    phdr.pageStart s.pages).bind _ = _
  rw [checkedMapEager_eq stray hoffset (Nat.not_lt.mp hfile) (by omega) _ _ _ hpages,
    Option.bind_some]
  cases mapEager data stray phdr s.space.pml4 phdr.eagerPages phdr.pageStart s.pages with
  | mk mapped pages =>
  cases mapped with
  | false => rfl
  | true =>
    have hareas' : ∀ area ∈ (s.setPages pages).space.vmas, EndsExactly area := hareas
    have harea : segmentArea phdr (phdr.pageEnd - phdr.pageStart) phdr.eagerPageEnd =
        phdr.area := by
      rw [← sub64_eq hle hlt]
      rfl
    change (checkedDeferred phdr.eagerPageEnd phdr.pageEnd).bind _ = _
    rw [hdeferred, Option.bind_some, checkedSub_of_le hle, Option.bind_some]
    change ((s.setPages pages).checkedAddVma (segmentArea phdr _ phdr.eagerPageEnd)).bind _ = _
    rw [harea, checkedAddVma_eq (area_endsExactly hend) hareas']
    rfl

theorem loadSegment_endsExactly (h : ExactSegment data phdr)
    (hareas : ∀ area ∈ s.space.vmas, EndsExactly area)
    (hload : loadSegment data stray phdr s = (.ok (), s')) :
    ∀ area ∈ s'.space.vmas, EndsExactly area := by
  rw [loadSegment] at hload
  split at hload
  · cases hload
  · rename_i hvalid
    simp only [Elf64ProgramHeader.invalid, Bool.or_eq_true, decide_eq_true_eq, not_or,
      Nat.not_lt] at hvalid
    obtain ⟨hoffset, hmem⟩ := h hvalid.1
    rw [add64_eq hoffset] at hvalid
    split at hload
    · cases hload
    · cases hload
      exact endsExactly_addVma (area_endsExactly (hmem hvalid.2)) hareas

/-- At each loadable segment the loop comes to, its sums are words, and so is the
count of bytes if it can be loaded. -/
def ExactLoads (data : List (BitVec 8)) (stray : Nat → BitVec 8) :
    List Elf64ProgramHeader → Nat → SpaceState → Prop
  | [], _, _ => True
  | phdr :: rest, totalBytes, s =>
    if phdr.skipped then ExactLoads data stray rest totalBytes s
    else ExactSegment data phdr ∧
      match loadSegment data stray phdr s with
      | (.error _, _) => True
      | (.ok (), s) => totalBytes + phdr.pMemsz < 2 ^ 64 ∧
          ExactLoads data stray rest (totalBytes + phdr.pMemsz) s

variable {stray}

theorem checkedLoadSegments_cases (phdrs : List Elf64ProgramHeader)
    (hcount : segmentsLoaded + phdrs.length < 2 ^ 64)
    (hareas : ∀ area ∈ s.space.vmas, EndsExactly area) :
    (ExactLoads data stray phdrs totalBytes s ∧
      checkedLoadSegments data phdrs segmentsLoaded totalBytes s =
        some (loadSegments data stray phdrs segmentsLoaded totalBytes s) ∧
      ∀ counts s', loadSegments data stray phdrs segmentsLoaded totalBytes s = (.ok counts, s') →
        ∀ area ∈ s'.space.vmas, EndsExactly area) ∨
    ¬ ExactLoads data stray phdrs totalBytes s ∧
      checkedLoadSegments data phdrs segmentsLoaded totalBytes s = none := by
  induction phdrs generalizing segmentsLoaded totalBytes s with
  | nil =>
    refine .inl ⟨trivial, rfl, ?_⟩
    rintro counts s' ⟨⟩
    exact hareas
  | cons phdr rest ih =>
    rw [List.length_cons] at hcount
    simp only [checkedLoadSegments, loadSegments, ExactLoads]
    by_cases hskipped : phdr.skipped = true
    · simp only [if_pos hskipped]
      exact ih (by omega) hareas
    simp only [if_neg hskipped]
    by_cases hsegment : ExactSegment data phdr
    · rw [checkedLoadSegment_eq stray hsegment hareas, Option.bind_eq_bind, Option.bind_some]
      have hends : ∀ s', loadSegment data stray phdr s = (.ok (), s') →
          ∀ area ∈ s'.space.vmas, EndsExactly area :=
        fun s' => loadSegment_endsExactly stray hsegment hareas
      generalize loadSegment data stray phdr s = result at hends ⊢
      obtain ⟨e | _, s₁⟩ := result
      · exact .inl ⟨⟨hsegment, trivial⟩, rfl, by rintro _ _ ⟨⟩⟩
      simp only [checkedAdd_of_lt (show segmentsLoaded + 1 < 2 ^ 64 by omega)]
      by_cases hbytes : totalBytes + phdr.pMemsz < 2 ^ 64
      · have hadd : add64 totalBytes phdr.pMemsz = totalBytes + phdr.pMemsz := add64_eq hbytes
        rw [checkedAdd_of_lt hbytes, hadd]
        rcases ih (show segmentsLoaded + 1 + rest.length < 2 ^ 64 by omega) (hends s₁ rfl) with
          ⟨hrest, heq, hall⟩ | ⟨hnot, heq⟩
        · exact .inl ⟨⟨hsegment, hbytes, hrest⟩, heq, hall⟩
        · exact .inr ⟨fun h => hnot h.2.2, heq⟩
      · rw [checkedAdd_of_le (Nat.not_lt.mp hbytes)]
        exact .inr ⟨fun h => hbytes h.2.1, rfl⟩
    · rw [checkedLoadSegment_of_not hsegment, Option.bind_eq_bind, Option.bind_none]
      exact .inr ⟨fun h => hsegment h.1, rfl⟩

end Exact

section Stack

theorem checkedStackPage_eq {top i : Nat} (htop : top < 2 ^ 64) (h : i * pageSize ≤ top) :
    checkedStackPage top i = some (sub64 top (i * pageSize % 2 ^ 64)) := by
  have hmod : i * pageSize % 2 ^ 64 = i * pageSize := Nat.mod_eq_of_lt (by omega)
  rw [checkedStackPage, checkedMul_of_lt (by omega), Option.bind_eq_bind, Option.bind_some,
    checkedSub_of_le h, hmod, sub64_eq h htop]

theorem checkedMapStack_eq (pml4 top pages i : Nat) (htop : top < 2 ^ 64)
    (h : (i + pages) * pageSize ≤ top + pageSize) (s : PageState) :
    checkedMapStack pml4 top pages i s = some (PageState.mapStack pml4 top pages i s) := by
  induction pages generalizing i s with
  | zero => rfl
  | succ pages ih =>
    have hsplit : (i + (pages + 1)) * pageSize = i * pageSize + pages * pageSize + pageSize := by
      grind
    have hpage : i * pageSize ≤ top := by omega
    have hnext : (i + 1 + pages) * pageSize ≤ top + pageSize := by
      rw [show i + 1 + pages = i + (pages + 1) by omega]
      exact h
    simp only [checkedMapStack, PageState.mapStack, checkedStackPage_eq htop hpage,
      Option.bind_eq_bind, Option.bind_some]
    cases s.allocateAndMapPage pml4 _ true with
    | mk frame s₁ =>
    cases frame with
    | none => rfl
    | some frame => exact ih (i + 1) hnext s₁

theorem checkedAllocateUserStack_eq (hareas : ∀ area ∈ s.space.vmas, EndsExactly area) :
    s.checkedAllocateUserStack defaultUserStackTop defaultUserStackPages =
      some (s.allocateUserStack defaultUserStackTop defaultUserStackPages) := by
  have hsize : checkedMul 64 defaultUserStackPages pageSize = some 0x4000 := by decide
  have hbase : checkedSub defaultUserStackTop 0x4000 = some 0x7FFFC000 := by decide
  have hguard : checkedSub 0x7FFFC000 pageSize = some 0x7FFFB000 := by decide
  have hguardArea : VmArea.new 0x7FFFB000 pageSize protNone (mapPrivate ||| mapAnonymous) true
      .guard = stackGuard := rfl
  have hguardEnds : EndsExactly stackGuard := by
    rw [EndsExactly]
    decide
  have hstackEnds : EndsExactly stackArea := by
    rw [EndsExactly]
    decide
  have hfold : (List.range defaultUserStackPages).foldlM
      (fun area i => (checkedStackPage defaultUserStackTop (i + 1)).map fun page =>
        area.insertPage page 0)
      (VmArea.new 0x7FFFC000 0x4000 (protRead ||| protWrite) (mapPrivate ||| mapAnonymous) false
        .stack) = some stackArea := by
    decide
  simp only [SpaceState.checkedAllocateUserStack, hsize, hbase, hguard, Option.bind_eq_bind,
    Option.bind_some, hguardArea, checkedAddVma_eq hguardEnds hareas, hfold]
  have hguarded := endsExactly_addVma hguardEnds hareas
  rw [allocateUserStack_eq, checkedMapStack_eq _ _ _ _ (by decide) (by decide), Option.bind_some,
    mapStack_eq, addVma_pages, (addVma_sameSpace s stackGuard).pml4]
  generalize (s.addVma stackGuard).2 = guarded at hguarded ⊢
  cases layPages s.space.pml4 (stackImages defaultUserStackTop defaultUserStackPages 1) s.pages with
  | mk mapped pages =>
  cases mapped with
  | false => rfl
  | true =>
    have hset : ∀ area ∈ (guarded.setPages pages).space.vmas, EndsExactly area := hguarded
    simp only [checkedAddVma_eq hstackEnds hset, Option.bind_some]

end Stack

section Loads

variable {kernelCr3 : Nat} {data : List (BitVec 8)} {stray : Nat → BitVec 8} {mem : Mem} {pmm : Pmm}

theorem phnum_lt (h : ElfBinary.parse data = .ok elf) :
    elf.header.phnum < 2 ^ 16 ∧ elf.header.phentsize < 2 ^ 16 := by
  rw [parse_ok h]
  exact ⟨readLe_lt data 56 2, readLe_lt data 54 2⟩

theorem checkedProgramHeaders_eq (h : ElfBinary.parse data = .ok elf) :
    checkedProgramHeaders elf = some elf.programHeaders := by
  obtain ⟨hphnum, hphentsize⟩ := phnum_lt h
  have hmul : elf.header.phnum * elf.header.phentsize < 2 ^ 64 := by
    calc elf.header.phnum * elf.header.phentsize
        ≤ 2 ^ 16 * 2 ^ 16 := Nat.mul_le_mul hphnum.le hphentsize.le
      _ < 2 ^ 64 := by decide
  simp only [checkedProgramHeaders, ElfBinary.programHeaders, checkedMul_of_lt hmul,
    Option.bind_some]
  split
  · rfl
  · split
    · rfl
    · rename_i hentry
      by_cases hsum : 2 ^ 64 ≤ elf.header.phoff + elf.header.phnum * elf.header.phentsize
      · rw [checkedAdd_of_le hsum, if_pos hsum]
      · rw [checkedAdd_of_lt (Nat.not_le.mp hsum), if_neg hsum]
        simp only
        split
        · rfl
        · rename_i hfits
          rw [mapM_eq_map _ fun i hi => ?_]
          · rfl
          · have hlast : i * elf.header.phentsize + elf.header.phentsize ≤
                elf.header.phnum * elf.header.phentsize := by
              rw [← Nat.succ_mul]
              exact Nat.mul_le_mul_right _ (List.mem_range.mp hi)
            rw [checkedMul_of_lt (by omega), Option.bind_eq_bind, Option.bind_some,
              checkedAdd_of_lt (by omega), Option.bind_some, require_of (by omega)]

theorem programHeaders_length_lt (h : ElfBinary.parse data = .ok elf)
    (hphdrs : elf.programHeaders = .ok phdrs) : phdrs.length < 2 ^ 64 := by
  have hphnum := (phnum_lt h).1
  simp only [ElfBinary.programHeaders] at hphdrs
  repeat' split at hphdrs
  all_goals cases hphdrs
  · exact Nat.two_pow_pos 64
  · rw [List.length_map, List.length_range]
    omega

theorem checkedBuildImage_eq (hlength : phdrs.length < 2 ^ 64)
    (hareas : ∀ area ∈ s.space.vmas, EndsExactly area) (h : ExactLoads elf.data stray phdrs 0 s) :
    checkedBuildImage elf phdrs s = some (buildImage elf phdrs stray s) := by
  have hcount : 0 + phdrs.length < 2 ^ 64 := by omega
  rcases checkedLoadSegments_cases phdrs hcount hareas with ⟨-, heq, hends⟩ | ⟨hnot, -⟩
  case inr => exact absurd h hnot
  rw [checkedBuildImage, buildImage, heq, Option.bind_eq_bind, Option.bind_some]
  cases hload : loadSegments elf.data stray phdrs 0 0 s with
  | mk result s₁ =>
  cases result with
  | error e => rfl
  | ok counts =>
    simp only
    split
    · rfl
    · rw [checkedAllocateUserStack_eq (hends counts s₁ hload), Option.bind_eq_bind,
        Option.bind_some]
      cases s₁.allocateUserStack defaultUserStackTop defaultUserStackPages with
      | mk mapped s₂ =>
      cases mapped with
      | false => rfl
      | true => rfl

/-- The sums that `load_elf` makes on this file are words. -/
def ExactLoad (kernelCr3 : Nat) (data : List (BitVec 8)) (stray : Nat → BitVec 8) (mem : Mem)
    (pmm : Pmm) : Prop :=
  ∀ elf phdrs space mem' pmm', ElfBinary.parse data = .ok elf → elf.programHeaders = .ok phdrs →
    AddressSpace.new kernelCr3 mem pmm = (some space, mem', pmm') →
      ExactLoads data stray phdrs 0 ⟨mem', pmm', space⟩

theorem checkedLoadElf_eq (h : ExactLoad kernelCr3 data stray mem pmm) :
    checkedLoadElf kernelCr3 data mem pmm = some (loadElf kernelCr3 data stray mem pmm) := by
  rw [checkedLoadElf, loadElf]
  cases hparse : ElfBinary.parse data with
  | error e => rfl
  | ok elf =>
  simp only [checkedProgramHeaders_eq hparse, Option.bind_eq_bind, Option.bind_some]
  cases hphdrs : elf.programHeaders with
  | error e => rfl
  | ok phdrs =>
  cases hnew : AddressSpace.new kernelCr3 mem pmm with
  | mk space rest =>
  obtain ⟨mem', pmm'⟩ := rest
  cases space with
  | none => rfl
  | some space =>
    have hareas : ∀ area ∈ (SpaceState.mk mem' pmm' space).space.vmas, EndsExactly area := by
      have hempty : space.vmas = [] := (new_areas hnew).2
      simp [hempty]
    have hexact : ExactLoads elf.data stray phdrs 0 ⟨mem', pmm', space⟩ := by
      rw [parse_ok hparse]
      exact h elf phdrs space mem' pmm' hparse hphdrs hnew
    simp only [checkedBuildImage_eq (programHeaders_length_lt hparse hphdrs) hareas hexact,
      Option.bind_some]
    cases buildImage elf phdrs stray ⟨mem', pmm', space⟩ with
    | mk result s =>
    cases result with
    | error e => rfl
    | ok loaded => rfl

theorem checkedLoadElf_of_not (h : ¬ ExactLoad kernelCr3 data stray mem pmm) :
    checkedLoadElf kernelCr3 data mem pmm = none := by
  simp only [ExactLoad, Classical.not_forall] at h
  obtain ⟨elf, phdrs, space, mem', pmm', hparse, hphdrs, hnew, h⟩ := h
  have hareas : ∀ area ∈ (SpaceState.mk mem' pmm' space).space.vmas, EndsExactly area := by
    have hempty : space.vmas = [] := (new_areas hnew).2
    simp [hempty]
  have hlength := programHeaders_length_lt hparse hphdrs
  have hnone : checkedLoadSegments data phdrs 0 0 ⟨mem', pmm', space⟩ = none :=
    (checkedLoadSegments_cases phdrs (by omega) hareas).elim
      (fun hexact => absurd hexact.1 h) And.right
  have hdata : elf.data = data := by rw [parse_ok hparse]
  simp only [checkedLoadElf, hparse, checkedProgramHeaders_eq hparse, Option.bind_eq_bind,
    Option.bind_some, hphdrs, hnew, checkedBuildImage, hdata, hnone, Option.bind_none]

end Loads

/-- No operation of `load_elf` overflows and every copy stays inside the file and the
frame, exactly where the sums of the segments it comes to are words. -/
theorem load_in_bounds_iff (kernelCr3 : Nat) (data : List (BitVec 8)) (stray : Nat → BitVec 8)
    (mem : Mem) (pmm : Pmm) :
    ExactLoad kernelCr3 data stray mem pmm ↔
      checkedLoadElf kernelCr3 data mem pmm = some (loadElf kernelCr3 data stray mem pmm) := by
  constructor
  · exact checkedLoadElf_eq
  · intro hchecked
    by_contra hnot
    rw [checkedLoadElf_of_not hnot] at hchecked
    cases hchecked

/-- A program of one segment whose four bytes of code lie just below 2 ^ 64 in the file. -/
def farProgram : List (BitVec 8) :=
  [0x7F, 0x45, 0x4C, 0x46, 2, 1, 1, 0, 0, 0, 0, 0, 0, 0, 0, 0,
    2, 0, 0x3E, 0, 1, 0, 0, 0, 0x10, 0, 0, 0x40, 0, 0, 0, 0,
    64, 0, 0, 0, 0, 0, 0, 0, 0, 0, 0, 0, 0, 0, 0, 0,
    0, 0, 0, 0, 64, 0, 56, 0, 1, 0, 0, 0, 0, 0, 0, 0,
    1, 0, 0, 0, 5, 0, 0, 0, 0xFC, 0xFF, 0xFF, 0xFF, 0xFF, 0xFF, 0xFF, 0xFF,
    0x10, 0, 0, 0x40, 0, 0, 0, 0, 0x10, 0, 0, 0x40, 0, 0, 0, 0,
    4, 0, 0, 0, 0, 0, 0, 0, 0, 0x20, 0, 0, 0, 0, 0, 0,
    0, 0x10, 0, 0, 0, 0, 0, 0]

/-- `file_offset + file_sz` wraps to zero, the file is accepted, and its code is copied
from memory that lies outside the file. -/
theorem far_program_accepted :
    checkedLoadElf 0x1000 farProgram hardwareTables (fewFrames 16) = none ∧
      ∃ loaded mem' pmm', loadElf 0x1000 farProgram (fun _ => 0xCC) hardwareTables (fewFrames 16) =
        (.ok loaded, mem', pmm') := by
  refine ⟨?_, loadElf_of_isSome (by decide +kernel)⟩
  have hnone : (checkedLoadElf 0x1000 farProgram hardwareTables (fewFrames 16)).isNone = true := by
    decide +kernel
  exact Option.isNone_iff_eq_none.mp hnone

end AuraOS.UserSpace
