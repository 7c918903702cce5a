import AuraOS.PageTables
import AuraOS.VirtualAreas

/-!
Per-process address spaces.  The page-level operations work on the physical
memory, the frame bitmap and the list of frames the space will free when it is
dropped; the area-level operations also update the list of areas.
-/

namespace AuraOS.UserSpace

open PhysicalFrames PageTables VirtualAreas

structure PageState where
  mem : Mem
  pmm : Pmm
  allocatedFrames : List Nat

def tableFlags : BitVec 64 := present ||| writable ||| userAccessible

def allocPageTable (mem : Mem) (pmm : Pmm) : Option (Nat × Mem × Pmm) := do
  let (phys, pmm) ← pmm.allocFrame
  return (phys, mem.zeroFrame phys, pmm)

/-- One level of `map_user_page`: the table behind an entry.  A present entry is
opened to user writes, whatever it points to; an absent one gets a new table. -/
def PageState.nextTable (s : PageState) (table : Nat) (index : Fin 512) : Option Nat × PageState :=
  let entry := s.mem table index
  if isPresent entry then
    let opened := makeEntry (entryAddr entry) (entryFlags entry ||| userAccessible ||| writable)
    (some (entryAddr entry), { s with mem := s.mem.setEntry table index opened })
  else
    match allocPageTable s.mem s.pmm with
    | none => (none, s)
    | some (phys, mem, pmm) =>
      (some phys, ⟨mem.setEntry table index (makeEntry phys tableFlags), pmm,
        s.allocatedFrames ++ [phys]⟩)

/-- The levels of `map_user_page` above the page table. -/
def PageState.leafTable (virt : Nat) : Nat → Nat → PageState → Option Nat × PageState
  | 0, table, s => (some table, s)
  | level + 1, table, s =>
    match s.nextTable table (tableIndex (level + 1) virt) with
    | (none, s) => (none, s)
    | (some next, s) => PageState.leafTable virt level next s

def pageFlags (writable : Bool) : BitVec 64 :=
  if writable then present ||| userAccessible ||| PageTables.writable
  else present ||| userAccessible

def PageState.mapUserPage (s : PageState) (pml4 virt phys : Nat) (writable : Bool) :
    Bool × PageState :=
  match PageState.leafTable virt 3 pml4 s with
  | (none, s) => (false, s)
  | (some table, s) =>
    (true, { s with
      mem := s.mem.setEntry table (tableIndex 0 virt) (makeEntry phys (pageFlags writable)) })

/-- `allocate_and_map_page`, which clears one byte of the frame. -/
def PageState.allocateAndMapPage (s : PageState) (pml4 virt : Nat) (writable : Bool) :
    Option Nat × PageState :=
  match s.pmm.allocFrame with
  | none => (none, s)
  | some (phys, pmm) =>
    match PageState.mapUserPage
      ⟨s.mem.writeByte phys 0 0, pmm, s.allocatedFrames ++ [phys]⟩ pml4 virt phys writable with
    | (true, s) => (some phys, s)
    | (false, s) => (none, s)

/-- The page table that `unmap_user_page` finds, following every present entry. -/
def findTable (mem : Mem) (virt : Nat) : Nat → Nat → Option Nat
  | 0, table => some table
  | level + 1, table =>
    let entry := mem table (tableIndex (level + 1) virt)
    if isPresent entry then findTable mem virt level (entryAddr entry) else none

def PageState.unmapUserPage (s : PageState) (pml4 virt : Nat) : Option Nat × PageState :=
  match findTable s.mem virt 3 pml4 with
  | none => (none, s)
  | some table =>
    let entry := s.mem table (tableIndex 0 virt)
    if isPresent entry then
      (some (entryAddr entry), ⟨s.mem.setEntry table (tableIndex 0 virt) 0, s.pmm,
        s.allocatedFrames.erase (entryAddr entry)⟩)
    else (none, s)

/-- The first loop of `munmap`, over a number of pages. -/
def PageState.unmapPages (pml4 : Nat) : Nat → Nat → PageState → PageState
  | 0, _, s => s
  | pages + 1, curr, s =>
    match s.unmapUserPage pml4 curr with
    | (none, s) => PageState.unmapPages pml4 pages (curr + pageSize) s
    | (some phys, s) =>
      PageState.unmapPages pml4 pages (curr + pageSize) { s with pmm := (s.pmm.freeFrame phys).2 }

def defaultUserHeapStart : Nat := 0x50000000

def defaultUserStackTop : Nat := 0x80000000

structure AddressSpace where
  pml4 : Nat
  allocatedFrames : List Nat
  vmas : List VmArea
  mmapBumpPtr : Nat
  heapStart : Nat
  heapEnd : Nat

structure SpaceState where
  mem : Mem
  pmm : Pmm
  space : AddressSpace

section Spaces

variable (s : SpaceState)

def SpaceState.pages : PageState :=
  ⟨s.mem, s.pmm, s.space.allocatedFrames⟩

def SpaceState.setPages (pages : PageState) : SpaceState :=
  ⟨pages.mem, pages.pmm, { s.space with allocatedFrames := pages.allocatedFrames }⟩

def SpaceState.setVmas (vmas : List VmArea) : SpaceState :=
  { s with space := { s.space with vmas := vmas } }

/-- `AddressSpace::new` over the kernel's root table.  When the second table
cannot be allocated the first one stays allocated. -/
def AddressSpace.new (kernelCr3 : Nat) (mem : Mem) (pmm : Pmm) : Option AddressSpace × Mem × Pmm :=
  match allocPageTable mem pmm with
  | none => (none, mem, pmm)
  | some (pml4, mem, pmm) =>
    let mem := mem.copyTable pml4 kernelCr3
    let kernelEntry := mem kernelCr3 0
    if isPresent kernelEntry then
      match allocPageTable mem pmm with
      | none => (none, mem, pmm)
      | some (pdpt, mem, pmm) =>
        let mem := mem.copyTable pdpt (entryAddr kernelEntry)
        (some ⟨pml4, [pml4, pdpt], [], mmapBaseStart, defaultUserHeapStart,
          defaultUserHeapStart⟩, mem.setEntry pml4 0 (makeEntry pdpt tableFlags), pmm)
    else
      (some ⟨pml4, [pml4], [], mmapBaseStart, defaultUserHeapStart, defaultUserHeapStart⟩, mem, pmm)

/-- `Drop for AddressSpace`. -/
def AddressSpace.drop (space : AddressSpace) (pmm : Pmm) : Pmm :=
  space.allocatedFrames.foldl (fun pmm addr => (pmm.freeFrame addr).2) pmm

def SpaceState.addVma (area : VmArea) : Except VmmError Unit × SpaceState :=
  if area.size = 0 ∨ area.start % pageSize ≠ 0 then (.error .invalidArguments, s)
  else if s.space.vmas.any (·.overlaps area.start area.size) then (.error .overlap, s)
  else (.ok (), s.setVmas (s.space.vmas ++ [area]))

def SpaceState.addGuardPage (guardAddr size : Nat) : Except VmmError Unit × SpaceState :=
  s.addVma (VmArea.new guardAddr size protNone (mapPrivate ||| mapAnonymous) true .guard)

/-- The loop of `allocate_user_stack` that maps page `i`, `i + 1`, … below the top. -/
def PageState.mapStack (pml4 top : Nat) : Nat → Nat → PageState → Bool × PageState
  | 0, _, s => (true, s)
  | pages + 1, i, s =>
    match s.allocateAndMapPage pml4 (sub64 top (i * pageSize % 2 ^ 64)) true with
    | (none, s) => (false, s)
    | (some _, s) => PageState.mapStack pml4 top pages (i + 1) s

def SpaceState.allocateUserStack (top numPages : Nat) : Bool × SpaceState :=
  let stackSize := numPages * pageSize % 2 ^ 64
  let stackBase := sub64 top stackSize
  let s := (s.addGuardPage (sub64 stackBase pageSize) pageSize).2
  match PageState.mapStack s.space.pml4 top numPages 1 s.pages with
  | (false, pages) => (false, s.setPages pages)
  | (true, pages) =>
    let area := VmArea.new stackBase stackSize (protRead ||| protWrite)
      (mapPrivate ||| mapAnonymous) false .stack
    let area := (List.range numPages).foldl
      (fun area i => area.insertPage (sub64 top ((i + 1) * pageSize % 2 ^ 64)) 0) area
    (true, ((s.setPages pages).addVma area).2)

/-- The loop of `allocate_user_code` over the pages of the code. -/
def PageState.mapCode (pml4 base : Nat) (code : List (BitVec 8)) :
    Nat → Nat → PageState → Bool × PageState
  | 0, _, s => (true, s)
  | pages + 1, offset, s =>
    match s.allocateAndMapPage pml4 (add64 base offset) true with
    | (none, s) => (false, s)
    | (some frame, s) =>
      PageState.mapCode pml4 base code pages (offset + pageSize)
        { s with mem := s.mem.copyBytes frame 0 ((code.drop offset).take pageSize) }

def SpaceState.allocateUserCode (base : Nat) (code : List (BitVec 8)) : Bool × SpaceState :=
  let (done, pages) := PageState.mapCode s.space.pml4 base code
    ((code.length + (pageSize - 1)) / pageSize) 0 s.pages
  (done, s.setPages pages)

def SpaceState.munmap (addr length : Nat) : Except VmmError Unit × SpaceState :=
  if length = 0 ∨ addr % pageSize ≠ 0 then (.error .invalidArguments, s)
  else
    let alignedLen := alignUpPage length
    let unmapEnd := add64 addr alignedLen
    let s := s.setPages
      (PageState.unmapPages s.space.pml4 ((unmapEnd - addr) / pageSize) addr s.pages)
    (.ok (), s.setVmas (s.space.vmas.flatMap (VmArea.cut addr unmapEnd alignedLen)))

/-- The search loop of `mmap` for a free range; each round that meets an area
goes on behind it. -/
def searchRange (vmas : List VmArea) (alignedLen : Nat) : Nat → Nat → Option Nat
  | 0, _ => none
  | rounds + 1, candidate =>
    if add64 candidate alignedLen ≤ mmapBaseEnd then
      match vmas.find? (·.overlaps candidate alignedLen) with
      | some existing => searchRange vmas alignedLen rounds (alignUpPage existing.endAddr)
      | none => some candidate
    else none

def AddressSpace.firstCandidate (space : AddressSpace) (addrHint : Option Nat) : Nat :=
  let hinted := (addrHint.map alignUpPage).filter fun a =>
    mmapBaseStart ≤ a && a < mmapBaseEnd
  max (hinted.getD (alignUpPage space.mmapBumpPtr)) mmapBaseStart

/-- The address that `mmap` chooses, with the space after the choice. -/
def AddressSpace.chooseRange (space : AddressSpace) (addrHint : Option Nat) (alignedLen : Nat)
    (flags : BitVec 32) : Except VmmError (Nat × AddressSpace) :=
  if flags &&& mapFixed ≠ 0 then
    match addrHint with
    | none => .error .invalidAddress
    | some req =>
      if req % pageSize ≠ 0 then .error .invalidAddress
      else if space.vmas.any (·.overlaps req alignedLen) then .error .overlap
      else .ok (req, space)
  else
    match searchRange space.vmas alignedLen (space.vmas.length + 1)
      (space.firstCandidate addrHint) with
    | none => .error .outOfMemory
    | some candidate =>
      .ok (candidate, { space with mmapBumpPtr := alignUpPage (add64 candidate alignedLen) })

/-- The `MAP_POPULATE` loop, with its rollback. -/
def SpaceState.populate (vaddr : Nat) (writable : Bool) :
    Nat → Nat → VmArea → SpaceState → Option VmArea × SpaceState
  | 0, _, area, s => (some area, s)
  | pages + 1, offset, area, s =>
    match s.pmm.allocFrame with
    | none => (none, (s.munmap vaddr offset).2)
    | some (phys, pmm) =>
      match PageState.mapUserPage
        ⟨s.mem.zeroFrame phys, pmm, s.space.allocatedFrames ++ [phys]⟩
        s.space.pml4 (add64 vaddr offset) phys writable with
      | (false, after) =>
        let s := s.setPages { after with pmm := (after.pmm.freeFrame phys).2 }
        (none, (s.munmap vaddr offset).2)
      | (true, after) =>
        SpaceState.populate vaddr writable pages (offset + pageSize)
          (area.insertPage (add64 vaddr offset) phys) (s.setPages after)

def SpaceState.mmap (s : SpaceState) (addrHint : Option Nat) (length : Nat)
    (prot flags : BitVec 32) : Except VmmError Nat × SpaceState :=
  if length = 0 then (.error .invalidArguments, s)
  else
    let alignedLen := alignUpPage length
    match s.space.chooseRange addrHint alignedLen flags with
    | .error e => (.error e, s)
    | .ok (vaddr, space) =>
      let s := { s with space := space }
      let area := VmArea.new vaddr alignedLen prot flags false .mmap
      if flags &&& mapPopulate ≠ 0 then
        match SpaceState.populate vaddr (prot &&& protWrite != 0) (alignedLen / pageSize) 0
          area s with
        | (none, s) => (.error .outOfMemory, s)
        | (some area, s) => (.ok vaddr, s.setVmas (s.space.vmas ++ [area]))
      else (.ok vaddr, s.setVmas (s.space.vmas ++ [area]))

def SpaceState.handleDemandFault (faultAddr : Nat) (isWrite : Bool) : Bool × SpaceState :=
  match s.space.vmas.findIdx? (·.contains faultAddr) with
  | none => (false, s)
  | some idx =>
    match s.space.vmas[idx]? with
    | none => (false, s)
    | some area =>
      if area.isGuardPage || area.prot == protNone then (false, s)
      else if isWrite && !area.isWritable then (false, s)
      else
        let basePage := alignDownPage faultAddr
        match s.pmm.allocFrame with
        | none => (false, s)
        | some (phys, pmm) =>
          match PageState.mapUserPage
            ⟨s.mem.zeroFrame phys, pmm, s.space.allocatedFrames ++ [phys]⟩
            s.space.pml4 basePage phys area.isWritable with
          | (false, after) =>
            (false, s.setPages { after with pmm := (after.pmm.freeFrame phys).2 })
          | (true, after) =>
            (true, (s.setPages after).setVmas
              (s.space.vmas.set idx (area.insertPage basePage phys)))

/-- `brk` growing the heap: the first `[heap]` area is extended, or one is made. -/
def AddressSpace.expandHeap (space : AddressSpace) (newBrk : Nat) : AddressSpace :=
  let newAlignedEnd := alignUpPage newBrk
  match space.vmas.findIdx? (·.name == .heap) with
  | some pos =>
    match space.vmas[pos]? with
    | none => space
    | some area =>
      let newSize := sub64 newAlignedEnd area.start
      if (space.vmas.eraseIdx pos).any (·.overlaps area.start newSize) then space
      else { space with
        vmas := space.vmas.set pos { area with size := newSize }
        heapEnd := newBrk }
  | none =>
    let size := sub64 newAlignedEnd space.heapStart
    if space.vmas.any (·.overlaps space.heapStart size) then space
    else { space with
      vmas := space.vmas ++ [VmArea.new space.heapStart size (protRead ||| protWrite)
        (mapPrivate ||| mapAnonymous) false .heap]
      heapEnd := newBrk }

/-- The first `[heap]` area gets the size that ends it at the new break. -/
def resizeHeap (newAlignedEnd : Nat) : List VmArea → List VmArea
  | [] => []
  | area :: rest =>
    if area.name = .heap then
      { area with size := sub64 newAlignedEnd area.start } :: rest
    else area :: resizeHeap newAlignedEnd rest

def SpaceState.shrinkHeap (newBrk : Nat) : SpaceState :=
  let newAlignedEnd := alignUpPage newBrk
  let oldAlignedEnd := alignUpPage s.space.heapEnd
  let s := if newAlignedEnd < oldAlignedEnd then
      (s.munmap newAlignedEnd (oldAlignedEnd - newAlignedEnd)).2
    else s
  { s with space := { s.space with
      vmas := resizeHeap newAlignedEnd s.space.vmas
      heapEnd := newBrk } }

def SpaceState.brk (newBrk : Nat) : Nat × SpaceState :=
  let s :=
    if newBrk = 0 ∨ newBrk < s.space.heapStart then s
    else if newBrk = s.space.heapEnd then s
    else if mmapBaseStart < newBrk then s
    else if s.space.heapEnd < newBrk then { s with space := s.space.expandHeap newBrk }
    else s.shrinkHeap newBrk
  (s.space.heapEnd, s)

end Spaces

end AuraOS.UserSpace
