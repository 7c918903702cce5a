import AuraOS.PhysicalFrames

/-!
Virtual memory areas of an address space.  Addresses and sizes are 64-bit; their
sums and differences wrap, as in a release build.
-/

namespace AuraOS.VirtualAreas

open PhysicalFrames

def add64 (a b : Nat) : Nat := (a + b) % 2 ^ 64
def sub64 (a b : Nat) : Nat := (a + 2 ^ 64 - b) % 2 ^ 64

def alignUpPage (addr : Nat) : Nat :=
  add64 addr (pageSize - 1) / pageSize * pageSize

def alignDownPage (addr : Nat) : Nat :=
  addr / pageSize * pageSize

def protNone : BitVec 32 := 0x0
def protRead : BitVec 32 := 0x1
def protWrite : BitVec 32 := 0x2
def protExec : BitVec 32 := 0x4

def mapPrivate : BitVec 32 := 0x02
def mapFixed : BitVec 32 := 0x10
def mapAnonymous : BitVec 32 := 0x20
def mapPopulate : BitVec 32 := 0x8000

def mmapBaseStart : Nat := 0x60000000
def mmapBaseEnd : Nat := 0x7F000000

inductive VmmError where
  | outOfMemory
  | invalidAddress
  | invalidArguments
  | overlap
  | permissionDenied
  | notFound
  deriving DecidableEq, Repr

inductive AreaName where
  | heap
  | mmap
  | stack
  | guard
  | elfBss
  | elfSegment
  deriving DecidableEq, Repr

structure VmArea where
  start : Nat
  size : Nat
  prot : BitVec 32
  flags : BitVec 32
  isGuardPage : Bool
  name : AreaName
  populatedPages : List (Nat × Nat)
  deriving DecidableEq, Repr

/-- `VmArea::new`: an area without populated pages. -/
def VmArea.new (start size : Nat) (prot flags : BitVec 32) (isGuardPage : Bool)
    (name : AreaName) : VmArea :=
  ⟨start, size, prot, flags, isGuardPage, name, []⟩

def VmArea.endAddr (area : VmArea) : Nat :=
  add64 area.start area.size

attribute [grind =] add64 sub64 alignUpPage alignDownPage mmapBaseStart mmapBaseEnd VmArea.endAddr

def VmArea.contains (area : VmArea) (addr : Nat) : Bool :=
  area.start ≤ addr && addr < area.endAddr

def VmArea.overlaps (area : VmArea) (start size : Nat) : Bool :=
  !(add64 start size ≤ area.start || area.endAddr ≤ start)

def VmArea.isWritable (area : VmArea) : Bool :=
  area.prot &&& protWrite != 0

/-- `BTreeMap::insert` on the populated pages. -/
def VmArea.insertPage (area : VmArea) (page phys : Nat) : VmArea :=
  { area with populatedPages :=
      (page, phys) :: area.populatedPages.filter fun entry => entry.1 ≠ page }

/-- What `munmap` leaves of one area for the range `[unmapStart, unmapEnd)`. -/
def VmArea.cut (unmapStart unmapEnd alignedLen : Nat) (area : VmArea) : List VmArea :=
  if area.overlaps unmapStart alignedLen then
    let kept := area.populatedPages.filter fun entry =>
      !(unmapStart ≤ entry.1 && entry.1 < unmapEnd)
    if unmapStart ≤ area.start ∧ area.endAddr ≤ unmapEnd then []
    else if unmapStart ≤ area.start ∧ unmapEnd < area.endAddr then
      [{ area with
          start := unmapEnd
          size := sub64 area.endAddr unmapEnd
          populatedPages := kept }]
    else if area.start < unmapStart ∧ area.endAddr ≤ unmapEnd then
      [{ area with
          size := sub64 unmapStart area.start
          populatedPages := kept }]
    else
      let onRight := fun entry : Nat × Nat => unmapEnd ≤ entry.1 && entry.1 < area.endAddr
      [{ area with
          size := sub64 unmapStart area.start
          populatedPages := kept.filter fun entry => !onRight entry },
        { area with
          start := unmapEnd
          size := sub64 area.endAddr unmapEnd
          populatedPages := kept.filter onRight }]
  else [area]

end AuraOS.VirtualAreas
