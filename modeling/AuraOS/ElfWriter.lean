import AuraOS.ProgramBytes

namespace AuraOS.ElfLoader

open PhysicalFrames PageTables VirtualAreas UserSpace Syscalls

section Writer

def elfOsabiSysv : BitVec 8 := 0

/-- The integer fields of a file header, each with its size; `repr(C)` puts no bytes
between them. -/
def Elf64Header.fields (header : Elf64Header) : List (Nat × Nat) :=
  [(2, header.elfType), (2, header.machine), (4, header.version), (8, header.entry),
    (8, header.phoff), (8, header.shoff), (4, header.flags), (2, header.ehsize),
    (2, header.phentsize), (2, header.phnum), (2, header.shentsize), (2, header.shnum),
    (2, header.shstrndx)]

def Elf64ProgramHeader.fields (phdr : Elf64ProgramHeader) : List (Nat × Nat) :=
  [(4, phdr.pType), (4, phdr.pFlags), (8, phdr.pOffset), (8, phdr.pVaddr), (8, phdr.pPaddr),
    (8, phdr.pFilesz), (8, phdr.pMemsz), (8, phdr.pAlign)]

def packed (fields : List (Nat × Nat)) : List (BitVec 8) :=
  fields.flatMap fun field => toLeBytes field.1 field.2

def Elf64Header.bytes (header : Elf64Header) : List (BitVec 8) :=
  header.ident ++ packed header.fields

def Elf64ProgramHeader.bytes (phdr : Elf64ProgramHeader) : List (BitVec 8) :=
  packed phdr.fields

/-- `copy_nonoverlapping` into a buffer at an offset. -/
def copyAt (buffer : List (BitVec 8)) (offset : Nat) (bytes : List (BitVec 8)) : List (BitVec 8) :=
  buffer.take offset ++ bytes ++ buffer.drop (offset + bytes.length)

def headerOffset : Nat := 0x80

def elfHeader (vaddr : Nat) : Elf64Header where
  ident := [0x7F, 0x45, 0x4C, 0x46, elfClass64, elfData2Lsb, elfVersionCurrent, elfOsabiSysv,
    0, 0, 0, 0, 0, 0, 0, 0]
  elfType := etExec
  machine := elfMachineX8664
  version := 1
  entry := vaddr
  phoff := headerSize
  shoff := 0
  flags := 0
  ehsize := headerSize
  phentsize := programHeaderSize
  phnum := 1
  shentsize := 64
  shnum := 0
  shstrndx := 0

def loadHeader (vaddr payloadLen : Nat) : Elf64ProgramHeader where
  pType := ptLoad
  pFlags := pfR ||| pfW ||| pfX
  pOffset := headerOffset
  pVaddr := vaddr
  pPaddr := vaddr
  pFilesz := payloadLen
  pMemsz := payloadLen
  pAlign := pageSize

def createElfBinary (vaddr : Nat) (code data : List (BitVec 8)) : List (BitVec 8) :=
  let payloadLen := code.length + data.length
  let elf := List.replicate (headerOffset + payloadLen) 0
  let elf := copyAt elf 0 (elfHeader vaddr).bytes
  let elf := copyAt elf headerSize (loadHeader vaddr payloadLen).bytes
  let elf := if code.isEmpty then elf else copyAt elf headerOffset code
  if data.isEmpty then elf else copyAt elf (headerOffset + code.length) data

end Writer

section Fields

theorem toLeBytes_succ (count value : Nat) :
    toLeBytes (count + 1) value = BitVec.ofNat 8 value :: toLeBytes count (value / 256) := by
  rw [toLeBytes, List.range_succ_eq_map, List.map_cons, List.map_map, Nat.mul_zero, Nat.pow_zero,
    Nat.div_one, toLeBytes]
  congr 1
  refine List.map_congr_left fun i _ => ?_
  simp only [Function.comp, Nat.succ_eq_add_one, Nat.mul_add, Nat.mul_one, Nat.pow_add,
    Nat.div_div_eq_div_mul]
  rw [Nat.mul_comm (2 ^ (8 * i))]

@[simp]
theorem length_toLeBytes (count value : Nat) : (toLeBytes count value).length = count := by
  rw [toLeBytes, List.length_map, List.length_range]

theorem readLe_toLeBytes (before after : List (BitVec 8)) (size value : Nat) :
    readLe (before ++ toLeBytes size value ++ after) before.length size = value % 256 ^ size := by
  induction size generalizing before value with
  | zero => rw [readLe, Nat.pow_zero, Nat.mod_one]
  | succ size ih =>
    have hshift : before ++ toLeBytes (size + 1) value ++ after =
        (before ++ [BitVec.ofNat 8 value]) ++ toLeBytes size (value / 256) ++ after := by
      rw [toLeBytes_succ, List.append_assoc before [_], List.singleton_append]
    have hbyte : (before ++ toLeBytes (size + 1) value ++ after).getD before.length 0 =
        BitVec.ofNat 8 value := by
      rw [toLeBytes_succ, List.append_assoc, List.getD_eq_getElem?_getD,
        List.getElem?_append_right le_rfl, Nat.sub_self]
      rfl
    have hrest := ih (before ++ [BitVec.ofNat 8 value]) (value / 256)
    rw [← hshift, List.length_append, List.length_singleton] at hrest
    have hpow : 256 ^ (size + 1) = 256 * 256 ^ size := Nat.pow_succ'
    rw [readLe, hbyte, hrest, BitVec.toNat_ofNat, hpow, Nat.mod_mul]

theorem packed_cons (size value : Nat) (fields : List (Nat × Nat)) :
    packed ((size, value) :: fields) = toLeBytes size value ++ packed fields :=
  rfl

def readFields (data : List (BitVec 8)) : Nat → List Nat → List Nat
  | _, [] => []
  | offset, size :: sizes => readLe data offset size :: readFields data (offset + size) sizes

theorem readFields_packed (before after : List (BitVec 8)) {fields : List (Nat × Nat)}
    (h : ∀ field ∈ fields, field.2 < 256 ^ field.1) :
    readFields (before ++ packed fields ++ after) before.length (fields.map Prod.fst) =
      fields.map Prod.snd := by
  induction fields generalizing before with
  | nil => rfl
  | cons field rest ih =>
    obtain ⟨size, value⟩ := field
    have hrest := ih (before ++ toLeBytes size value) fun f hf => h f (.tail _ hf)
    rw [List.length_append, length_toLeBytes, List.append_assoc before] at hrest
    have hfirst := readLe_toLeBytes before (packed rest ++ after) size value
    rw [Nat.mod_eq_of_lt (h (size, value) (.head _)), ← List.append_assoc,
      List.append_assoc before] at hfirst
    rw [List.map_cons, List.map_cons, packed_cons, readFields, hfirst, hrest]

theorem readHeader_bytes {header : Elf64Header} (hident : header.ident.length = 16)
    (hfits : ∀ field ∈ header.fields, field.2 < 256 ^ field.1) (rest : List (BitVec 8)) :
    readHeader (header.bytes ++ rest) = header := by
  have hread := readFields_packed header.ident rest hfits
  rw [hident, ← Elf64Header.bytes] at hread
  simp only [Elf64Header.fields, List.map_cons, List.map_nil, readFields, List.cons.injEq,
    Nat.reduceAdd, and_true] at hread
  obtain ⟨h₁, h₂, h₃, h₄, h₅, h₆, h₇, h₈, h₉, h₁₀, h₁₁, h₁₂, h₁₃⟩ := hread
  have htake : (header.bytes ++ rest).take 16 = header.ident := by
    rw [Elf64Header.bytes, List.append_assoc, ← hident, List.take_left]
  rw [readHeader, htake, h₁, h₂, h₃, h₄, h₅, h₆, h₇, h₈, h₉, h₁₀, h₁₁, h₁₂, h₁₃]

theorem readProgramHeader_bytes {phdr : Elf64ProgramHeader}
    (hfits : ∀ field ∈ phdr.fields, field.2 < 256 ^ field.1) (before rest : List (BitVec 8)) :
    readProgramHeader (before ++ phdr.bytes ++ rest) before.length = phdr := by
  have hread := readFields_packed before rest hfits
  rw [← Elf64ProgramHeader.bytes] at hread
  simp only [Elf64ProgramHeader.fields, List.map_cons, List.map_nil, readFields, List.cons.injEq,
    Nat.add_assoc, Nat.reduceAdd, and_true] at hread
  obtain ⟨h₁, h₂, h₃, h₄, h₅, h₆, h₇, h₈⟩ := hread
  rw [readProgramHeader, h₁, h₂, h₃, h₄, h₅, h₆, h₇, h₈]

end Fields

section Layout

theorem copyAt_block {front block bytes : List (BitVec 8)} {offset : Nat}
    (hoffset : front.length = offset) (hlength : block.length = bytes.length)
    (back : List (BitVec 8)) : copyAt (front ++ (block ++ back)) offset bytes =
      front ++ bytes ++ back := by
  rw [copyAt, ← hoffset, List.take_left, ← hlength, ← List.drop_drop, List.drop_left,
    List.drop_left]

theorem length_elfHeader (vaddr : Nat) : (elfHeader vaddr).bytes.length = headerSize := by
  rfl

theorem length_loadHeader (vaddr payloadLen : Nat) :
    (loadHeader vaddr payloadLen).bytes.length = programHeaderSize := by
  rfl

theorem copyAt_nil (buffer : List (BitVec 8)) (offset : Nat) :
    copyAt buffer offset [] = buffer := by
  rw [copyAt, List.append_nil, List.length_nil, Nat.add_zero, List.take_append_drop]

theorem copyAt_of_isEmpty (buffer : List (BitVec 8)) (offset : Nat) (bytes : List (BitVec 8)) :
    (if bytes.isEmpty then buffer else copyAt buffer offset bytes) =
      copyAt buffer offset bytes := by
  cases bytes with
  | nil => exact (copyAt_nil buffer offset).symm
  | cons byte rest => rfl

theorem createElfBinary_eq (vaddr : Nat) (code data : List (BitVec 8)) :
    createElfBinary vaddr code data = (elfHeader vaddr).bytes ++
      (loadHeader vaddr (code.length + data.length)).bytes ++ List.replicate 8 0 ++ code ++
        data := by
  simp only [createElfBinary, copyAt_of_isEmpty]
  have hehdr := length_elfHeader vaddr
  have hphdr := length_loadHeader vaddr (code.length + data.length)
  generalize (elfHeader vaddr).bytes = ehdr at hehdr ⊢
  generalize (loadHeader vaddr (code.length + data.length)).bytes = phdr at hphdr ⊢
  -- the zeroed buffer, cut into the blocks that are copied over
  have hbuffer : List.replicate (headerOffset + (code.length + data.length)) (0 : BitVec 8) =
      [] ++ (List.replicate headerSize 0 ++ (List.replicate programHeaderSize 0 ++
        (List.replicate 8 0 ++
          (List.replicate code.length 0 ++ List.replicate data.length 0)))) := by
    simp only [List.nil_append, List.replicate_append_replicate]
    congr 1
    simp only [headerOffset, headerSize, programHeaderSize]
    omega
  have hheaders : (ehdr ++ phdr ++ List.replicate 8 0).length = headerOffset := by
    rw [List.length_append, List.length_append, hehdr, hphdr, List.length_replicate]
    rfl
  have hcode : (ehdr ++ phdr ++ List.replicate 8 0 ++ code).length =
      headerOffset + code.length := by
    rw [List.length_append, hheaders]
  rw [hbuffer, copyAt_block List.length_nil (by rw [List.length_replicate, hehdr]), List.nil_append,
    copyAt_block hehdr (by rw [List.length_replicate, hphdr]), ← List.append_assoc _ _ (_ ++ _),
    copyAt_block hheaders List.length_replicate, ← List.append_nil (List.replicate data.length 0),
    copyAt_block hcode List.length_replicate, List.append_nil]

theorem length_createElfBinary (vaddr : Nat) (code data : List (BitVec 8)) :
    (createElfBinary vaddr code data).length = headerOffset + (code.length + data.length) := by
  rw [createElfBinary_eq]
  simp only [List.length_append, length_elfHeader, length_loadHeader, List.length_replicate,
    headerSize, programHeaderSize, headerOffset]
  omega

end Layout

section Parsing

variable {vaddr : Nat} {code data : List (BitVec 8)}

theorem parse_createElfBinary (hvaddr : vaddr < 2 ^ 64) :
    ElfBinary.parse (createElfBinary vaddr code data) =
      .ok ⟨createElfBinary vaddr code data, elfHeader vaddr⟩ := by
  have hread : readHeader (createElfBinary vaddr code data) = elfHeader vaddr := by
    rw [createElfBinary_eq]
    simp only [List.append_assoc]
    refine readHeader_bytes rfl ?_ _
    have hentry : vaddr < 256 ^ 8 := hvaddr
    simp only [Elf64Header.fields, elfHeader, List.forall_mem_cons]
    exact ⟨by decide, by decide, by decide, hentry, by decide, by decide, by decide, by decide,
      by decide, by decide, by decide, by decide, by decide, nofun⟩
  have hlength : ¬ (createElfBinary vaddr code data).length < headerSize := by
    rw [length_createElfBinary]
    simp only [headerOffset, headerSize]
    omega
  rw [ElfBinary.parse, if_neg hlength, hread]
  rfl

theorem programHeaders_createElfBinary (hvaddr : vaddr < 2 ^ 64)
    (hlength : code.length + data.length < 2 ^ 64) :
    ElfBinary.programHeaders ⟨createElfBinary vaddr code data, elfHeader vaddr⟩ =
      .ok [loadHeader vaddr (code.length + data.length)] := by
  have hread : readProgramHeader (createElfBinary vaddr code data) headerSize =
      loadHeader vaddr (code.length + data.length) := by
    rw [createElfBinary_eq, ← length_elfHeader vaddr]
    simp only [List.append_assoc]
    rw [← List.append_assoc]
    refine readProgramHeader_bytes ?_ _ _
    have haddr : vaddr < 256 ^ 8 := hvaddr
    have hsize : code.length + data.length < 256 ^ 8 := hlength
    simp only [Elf64ProgramHeader.fields, loadHeader, List.forall_mem_cons]
    exact ⟨by decide, by decide, by decide, haddr, haddr, hsize, hsize, by decide, nofun⟩
  have hroom : ¬ (createElfBinary vaddr code data).length < (elfHeader vaddr).phoff +
      (elfHeader vaddr).phnum * (elfHeader vaddr).phentsize := by
    rw [length_createElfBinary]
    have hheaders : headerSize + 1 * programHeaderSize ≤ headerOffset := by decide
    exact Nat.not_lt.mpr (Nat.le_trans hheaders (Nat.le_add_right _ _))
  have hone : (elfHeader vaddr).phnum ≠ 0 := Nat.one_ne_zero
  have hentry : ¬ (elfHeader vaddr).phentsize < programHeaderSize := Nat.lt_irrefl _
  have hend : ¬ 2 ^ 64 ≤ (elfHeader vaddr).phoff +
      (elfHeader vaddr).phnum * (elfHeader vaddr).phentsize :=
    Nat.not_le.mpr (by decide : headerSize + 1 * programHeaderSize < 2 ^ 64)
  simp only [ElfBinary.programHeaders]
  rw [if_neg hone, if_neg hentry, if_neg hend, if_neg hroom]
  change Except.ok [readProgramHeader _ (headerSize + 0 * programHeaderSize)] = _
  rw [Nat.zero_mul, Nat.add_zero, hread]

end Parsing

section Loading

variable {vaddr : Nat} {code data : List (BitVec 8)}

theorem getElem?_createElfBinary (i : Nat) :
    (createElfBinary vaddr code data)[headerOffset + i]? = (code ++ data)[i]? := by
  have hlength : ((elfHeader vaddr).bytes ++ (loadHeader vaddr (code.length + data.length)).bytes ++
      List.replicate 8 0).length = headerOffset := by
    rfl
  rw [createElfBinary_eq, List.append_assoc _ code, ← hlength,
    List.getElem?_append_right (Nat.le_add_right _ _), Nat.add_sub_cancel_left]

theorem loadHeader_loads {payloadLen : Nat} (hpayload : payloadLen ≠ 0) :
    (loadHeader vaddr payloadLen).skipped = false := by
  simp only [Elf64ProgramHeader.skipped, loadHeader, Bool.or_eq_false_iff, beq_eq_false_iff_ne]
  exact ⟨rfl, hpayload⟩

theorem loadHeader_valid :
    (loadHeader vaddr (code.length + data.length)).invalid (createElfBinary vaddr code data) =
      false := by
  rw [Elf64ProgramHeader.invalid, length_createElfBinary, Bool.or_eq_false_iff,
    decide_eq_false_iff_not, decide_eq_false_iff_not]
  refine ⟨Nat.lt_irrefl _, Nat.not_lt.mpr ?_⟩
  exact Nat.mod_le _ _

/-- A file of `create_elf_binary` for a range below the stack is parsed, its one header
is the one written, and loading it over frames enough puts the payload at its address. -/
theorem writer_loader_agree (vaddr : Nat) (code data : List (BitVec 8))
    (hpayload : code ++ data ≠ []) (hlow : 0x40000000 ≤ vaddr)
    (hhigh : vaddr + (code.length + data.length) ≤ 0x7FFFB000) :
    (∃ elf, ElfBinary.parse (createElfBinary vaddr code data) = .ok elf ∧
      elf.entryPoint = vaddr ∧
      elf.programHeaders = .ok [loadHeader vaddr (code.length + data.length)]) ∧
    ∀ kern kernelCr3 mem pmm stray, KernelRoot mem pmm kern kernelCr3 →
      framesToLoad kernelCr3 mem (createElfBinary vaddr code data)
        [loadHeader vaddr (code.length + data.length)] ≤ pmm.freeCount →
      ∃ loaded mem' pmm', loadElf kernelCr3 (createElfBinary vaddr code data) stray mem pmm =
          (.ok loaded, mem', pmm') ∧
        loaded.entryPoint = vaddr ∧ loaded.segmentsLoaded = 1 ∧
        loaded.totalBytes = code.length + data.length ∧
        ∀ i < code.length + data.length,
          visibleByte mem' loaded.space.pml4 (vaddr + i) = (code ++ data)[i]? := by
  have hparse : ElfBinary.parse (createElfBinary vaddr code data) = _ :=
    parse_createElfBinary (by omega)
  have hphdrs : ElfBinary.programHeaders ⟨createElfBinary vaddr code data, elfHeader vaddr⟩ = _ :=
    programHeaders_createElfBinary (by omega) (by omega)
  refine ⟨⟨_, hparse, rfl, hphdrs⟩, fun kern kernelCr3 mem pmm stray hroot hframes => ?_⟩
  have hlength : code.length + data.length ≠ 0 := by
    rw [← List.length_append]
    exact fun hzero => hpayload (List.eq_nil_of_length_eq_zero hzero)
  have hloads : (loadHeader vaddr (code.length + data.length)).skipped = false :=
    loadHeader_loads hlength
  -- what the one header satisfies
  have hvalid : ∀ phdr ∈ [loadHeader vaddr (code.length + data.length)], phdr.skipped = false →
      phdr.invalid (createElfBinary vaddr code data) = false := by
    intro phdr hphdr _
    rw [List.mem_singleton.mp hphdr]
    exact loadHeader_valid
  have hbelow : ∀ phdr ∈ [loadHeader vaddr (code.length + data.length)], phdr.skipped = false →
      BelowStack phdr := by
    intro phdr hphdr _
    rw [List.mem_singleton.mp hphdr]
    exact ⟨hlow, hhigh⟩
  have hpriv : ∀ kern : KernelTables, ∀ page ∈ loadPages (createElfBinary vaddr code data)
      [loadHeader vaddr (code.length + data.length)], kern.Private page :=
    fun kern => eager_private hbelow
  have haccepted : ∃ loaded mem' pmm', loadElf kernelCr3 (createElfBinary vaddr code data) stray
      mem pmm = (.ok loaded, mem', pmm') := (loadElf_ok_iff hroot hparse hphdrs (hpriv kern)).mpr
    ⟨hvalid, ⟨_, List.mem_singleton_self _, hloads⟩, hframes⟩
  obtain ⟨loaded, mem', pmm', hload⟩ := haccepted
  obtain ⟨hentry, hcounts⟩ := loadElf_counts hparse hphdrs hload
  have hone : loadCounts [loadHeader vaddr (code.length + data.length)] (0, 0) =
      (1, code.length + data.length) := by
    rw [loadCounts, List.filter_singleton, hloads]
    change (1, add64 0 (code.length + data.length)) = _
    rw [add64_eq (by omega), Nat.zero_add]
  rw [hone, Prod.mk.injEq] at hcounts
  refine ⟨loaded, mem', pmm', hload, hentry, hcounts.1, hcounts.2, fun i hi => ?_⟩
  have hin : i < (code ++ data).length := by
    rw [List.length_append]
    exact hi
  have hbyte : (createElfBinary vaddr code data)[headerOffset + i]? = some (code ++ data)[i] := by
    rw [getElem?_createElfBinary, List.getElem?_eq_getElem hin]
  have hfile : (createElfBinary vaddr code data).length < 2 ^ 64 := by
    rw [length_createElfBinary, headerOffset]
    omega
  have hsplit : [loadHeader vaddr (code.length + data.length)] =
      [] ++ loadHeader vaddr (code.length + data.length) :: [] := rfl
  have hsupplied : Supplied (createElfBinary vaddr code data) stray
      [loadHeader vaddr (code.length + data.length)] (vaddr + i) (code ++ data)[i] :=
    (supplied_iff hfile hsplit hloads hvalid hbelow (by simp) hi hbyte).mpr (by simp)
  rw [List.getElem?_eq_getElem hin]
  exact (supplied_iff_visible hroot hparse hphdrs hpriv ⟨loaded, mem', pmm', hload⟩).mp hsupplied
    _ _ _ _ _ _ _ hroot hload

/-- Four bytes of code and two of data behind 0x40000010, with sixteen frames free. -/
theorem writer_loader_agree_small :
    ∃ loaded mem' pmm', loadElf 0x1000 (createElfBinary 0x40000010 [0x90, 0x90, 0xEB, 0xFE] [7, 8])
        (fun _ => 0) hardwareTables (fewFrames 16) = (.ok loaded, mem', pmm') ∧
      loaded.entryPoint = 0x40000010 ∧ loaded.segmentsLoaded = 1 ∧ loaded.totalBytes = 6 ∧
      ∀ i < 6, visibleByte mem' loaded.space.pml4 (0x40000010 + i) =
        [0x90, 0x90, 0xEB, 0xFE, 7, 8][i]? := by
  have hneeded : framesToLoad 0x1000 hardwareTables
      (createElfBinary 0x40000010 [0x90, 0x90, 0xEB, 0xFE] [7, 8])
        [loadHeader 0x40000010 6] ≤ 16 := by
    decide +kernel
  have hfree : 16 ≤ (fewFrames 16).freeCount := le_freeCount (by decide) (by decide)
  exact (writer_loader_agree 0x40000010 [0x90, 0x90, 0xEB, 0xFE] [7, 8] (by decide) (by decide)
    (by decide)).2 hardwareKernel 0x1000 hardwareTables (fewFrames 16) (fun _ => 0)
      (hardwareKernel_root _) (hneeded.trans hfree)

end Loading

end AuraOS.ElfLoader
