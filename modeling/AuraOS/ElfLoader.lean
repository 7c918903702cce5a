import AuraOS.UserSpace

namespace AuraOS.ElfLoader

open PhysicalFrames PageTables VirtualAreas UserSpace

inductive ElfError where
  | binaryTooSmall
  | invalidMagic
  | unsupportedClass
  | unsupportedEndianness
  | unsupportedVersion
  | unsupportedMachine
  | unsupportedType
  | invalidProgramHeaders
  | addressSpaceAllocationFailed
  | segmentMappingFailed
  | noLoadableSegments
  deriving DecidableEq, Repr

def elfMagic : List (BitVec 8) := [0x7F, 0x45, 0x4C, 0x46]
def elfClass64 : BitVec 8 := 2
def elfData2Lsb : BitVec 8 := 1
def elfVersionCurrent : BitVec 8 := 1
def elfMachineX8664 : Nat := 0x3E
def etExec : Nat := 2
def etDyn : Nat := 3
def ptLoad : Nat := 1
def pfX : Nat := 0x1
def pfW : Nat := 0x2
def pfR : Nat := 0x4
def defaultUserStackPages : Nat := 4

def headerSize : Nat := 64
def programHeaderSize : Nat := 56

def readLe (data : List (BitVec 8)) (offset : Nat) : Nat → Nat
  | 0 => 0
  | n + 1 => (data.getD offset 0).toNat + 256 * readLe data (offset + 1) n

structure Elf64Header where
  ident : List (BitVec 8)
  elfType : Nat
  machine : Nat
  version : Nat
  entry : Nat
  phoff : Nat
  shoff : Nat
  flags : Nat
  ehsize : Nat
  phentsize : Nat
  phnum : Nat
  shentsize : Nat
  shnum : Nat
  shstrndx : Nat
  deriving DecidableEq, Repr

structure Elf64ProgramHeader where
  pType : Nat
  pFlags : Nat
  pOffset : Nat
  pVaddr : Nat
  pPaddr : Nat
  pFilesz : Nat
  pMemsz : Nat
  pAlign : Nat
  deriving DecidableEq, Repr

structure ElfBinary where
  data : List (BitVec 8)
  header : Elf64Header

def readHeader (data : List (BitVec 8)) : Elf64Header where
  ident := data.take 16
  elfType := readLe data 16 2
  machine := readLe data 18 2
  version := readLe data 20 4
  entry := readLe data 24 8
  phoff := readLe data 32 8
  shoff := readLe data 40 8
  flags := readLe data 48 4
  ehsize := readLe data 52 2
  phentsize := readLe data 54 2
  phnum := readLe data 56 2
  shentsize := readLe data 58 2
  shnum := readLe data 60 2
  shstrndx := readLe data 62 2

def ElfBinary.parse (data : List (BitVec 8)) : Except ElfError ElfBinary :=
  if data.length < headerSize then .error .binaryTooSmall
  else
    let header := readHeader data
    if header.ident.take 4 ≠ elfMagic then .error .invalidMagic
    else if header.ident.getD 4 0 ≠ elfClass64 then .error .unsupportedClass
    else if header.ident.getD 5 0 ≠ elfData2Lsb then .error .unsupportedEndianness
    else if header.ident.getD 6 0 ≠ elfVersionCurrent ∨ header.version ≠ 1 then
      .error .unsupportedVersion
    else if header.machine ≠ elfMachineX8664 then .error .unsupportedMachine
    else if header.elfType ≠ etExec ∧ header.elfType ≠ etDyn then .error .unsupportedType
    else .ok ⟨data, header⟩

def readProgramHeader (data : List (BitVec 8)) (offset : Nat) : Elf64ProgramHeader where
  pType := readLe data offset 4
  pFlags := readLe data (offset + 4) 4
  pOffset := readLe data (offset + 8) 8
  pVaddr := readLe data (offset + 16) 8
  pPaddr := readLe data (offset + 24) 8
  pFilesz := readLe data (offset + 32) 8
  pMemsz := readLe data (offset + 40) 8
  pAlign := readLe data (offset + 48) 8

/-- `program_headers`; its sums are checked, so they do not wrap. -/
def ElfBinary.programHeaders (elf : ElfBinary) : Except ElfError (List Elf64ProgramHeader) :=
  let phoff := elf.header.phoff
  let phentsize := elf.header.phentsize
  let phnum := elf.header.phnum
  if phnum = 0 then .ok []
  else if phentsize < programHeaderSize then .error .invalidProgramHeaders
  else if 2 ^ 64 ≤ phoff + phnum * phentsize then .error .invalidProgramHeaders
  else if elf.data.length < phoff + phnum * phentsize then .error .invalidProgramHeaders
  else .ok ((List.range phnum).map fun i => readProgramHeader elf.data (phoff + i * phentsize))

def ElfBinary.entryPoint (elf : ElfBinary) : Nat :=
  elf.header.entry

section Segments

variable (data : List (BitVec 8)) (stray : Nat → BitVec 8) (phdr : Elf64ProgramHeader)

/-- Headers that `load_elf` passes over. -/
def Elf64ProgramHeader.skipped : Bool :=
  phdr.pType != ptLoad || phdr.pMemsz == 0

def Elf64ProgramHeader.invalid : Bool :=
  phdr.pMemsz < phdr.pFilesz || data.length < add64 phdr.pOffset phdr.pFilesz

def Elf64ProgramHeader.pageStart : Nat :=
  phdr.pVaddr / pageSize * pageSize

def Elf64ProgramHeader.pageEnd : Nat :=
  add64 (add64 phdr.pVaddr phdr.pMemsz) (pageSize - 1) / pageSize * pageSize

def Elf64ProgramHeader.fileDataEnd : Nat :=
  add64 phdr.pVaddr phdr.pFilesz

def Elf64ProgramHeader.eagerPageEnd : Nat :=
  min (if 0 < phdr.pFilesz then add64 phdr.fileDataEnd (pageSize - 1) / pageSize * pageSize
    else phdr.pageStart) phdr.pageEnd

def Elf64ProgramHeader.eagerPages : Nat :=
  (phdr.eagerPageEnd - phdr.pageStart) / pageSize

attribute [grind =] Elf64ProgramHeader.pageStart Elf64ProgramHeader.pageEnd
  Elf64ProgramHeader.eagerPages

/-- The byte at an offset from the start of the file; behind its end, whatever the
memory holds there. -/
def sourceByte (offset : Nat) : BitVec 8 :=
  if offset < data.length then data.getD offset 0 else stray offset

def copySegment (page frame : Nat) (mem : Mem) : Mem :=
  let overlapStart := max page phdr.pVaddr
  let overlapEnd := min (add64 page pageSize) phdr.fileDataEnd
  if overlapStart < overlapEnd then
    let source := add64 phdr.pOffset (overlapStart - phdr.pVaddr)
    mem.copyBytes frame (overlapStart - page)
      ((List.range (overlapEnd - overlapStart)).map fun k => sourceByte data stray (add64 source k))
  else mem

def mapEager (pml4 : Nat) : Nat → Nat → PageState → Bool × PageState
  | 0, _, s => (true, s)
  | pages + 1, page, s =>
    match s.allocateAndMapPage pml4 page true with
    | (none, s) => (false, s)
    | (some frame, s) =>
      mapEager pml4 pages (page + pageSize)
        { s with mem := copySegment data stray phdr page frame s.mem }

def segmentProt (flags : Nat) : BitVec 32 :=
  (if flags &&& pfR ≠ 0 then protRead else 0) ||| (if flags &&& pfW ≠ 0 then protWrite else 0) |||
    (if flags &&& pfX ≠ 0 then protExec else 0)

def Elf64ProgramHeader.area : VmArea :=
  let area := VmArea.new phdr.pageStart (sub64 phdr.pageEnd phdr.pageStart)
    (segmentProt phdr.pFlags) mapPrivate false
    (if phdr.eagerPageEnd = phdr.pageStart ∧ phdr.pFilesz = 0 then .elfBss else .elfSegment)
  (List.range phdr.eagerPages).foldl
    (fun area i => area.insertPage (phdr.pageStart + i * pageSize) 0) area

def loadSegment (s : SpaceState) : Except ElfError Unit × SpaceState :=
  if phdr.invalid data then (.error .invalidProgramHeaders, s)
  else
    match mapEager data stray phdr s.space.pml4 phdr.eagerPages phdr.pageStart s.pages with
    | (false, pages) => (.error .segmentMappingFailed, s.setPages pages)
    | (true, pages) => (.ok (), ((s.setPages pages).addVma phdr.area).2)

end Segments

def loadSegments (data : List (BitVec 8)) (stray : Nat → BitVec 8) :
    List Elf64ProgramHeader → Nat → Nat → SpaceState → Except ElfError (Nat × Nat) × SpaceState
  | [], segmentsLoaded, totalBytes, s => (.ok (segmentsLoaded, totalBytes), s)
  | phdr :: rest, segmentsLoaded, totalBytes, s =>
    if phdr.skipped then loadSegments data stray rest segmentsLoaded totalBytes s
    else
      match loadSegment data stray phdr s with
      | (.error e, s) => (.error e, s)
      | (.ok (), s) =>
        loadSegments data stray rest (segmentsLoaded + 1) (add64 totalBytes phdr.pMemsz) s

structure LoadedElf where
  entryPoint : Nat
  userStackTop : Nat
  space : AddressSpace
  segmentsLoaded : Nat
  totalBytes : Nat

/-- The part of `load_elf` that works on the new space. -/
def buildImage (elf : ElfBinary) (phdrs : List Elf64ProgramHeader) (stray : Nat → BitVec 8)
    (s : SpaceState) : Except ElfError LoadedElf × SpaceState :=
  match loadSegments elf.data stray phdrs 0 0 s with
  | (.error e, s) => (.error e, s)
  | (.ok (segmentsLoaded, totalBytes), s) =>
    if segmentsLoaded = 0 then (.error .noLoadableSegments, s)
    else
      match s.allocateUserStack defaultUserStackTop defaultUserStackPages with
      | (false, s) => (.error .segmentMappingFailed, s)
      | (true, s) =>
        (.ok ⟨elf.entryPoint, defaultUserStackTop, s.space, segmentsLoaded, totalBytes⟩, s)

/-- `load_elf`.  On an error the space it had made is dropped. -/
def loadElf (kernelCr3 : Nat) (data : List (BitVec 8)) (stray : Nat → BitVec 8) (mem : Mem)
    (pmm : Pmm) : Except ElfError LoadedElf × Mem × Pmm :=
  match ElfBinary.parse data with
  | .error e => (.error e, mem, pmm)
  | .ok elf =>
    match elf.programHeaders with
    | .error e => (.error e, mem, pmm)
    | .ok phdrs =>
      match AddressSpace.new kernelCr3 mem pmm with
      | (none, mem, pmm) => (.error .addressSpaceAllocationFailed, mem, pmm)
      | (some space, mem, pmm) =>
        match buildImage elf phdrs stray ⟨mem, pmm, space⟩ with
        | (.error e, s) => (.error e, s.mem, s.space.drop s.pmm)
        | (.ok loaded, s) => (.ok loaded, s.mem, s.pmm)

end AuraOS.ElfLoader
