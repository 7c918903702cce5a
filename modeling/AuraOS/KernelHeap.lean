import AuraOS.IntervalLists

/-!
The linked-list allocator of the kernel heap.  The list of free nodes after the
sentinel `head` is a list of intervals; addresses are 64-bit and their
arithmetic wraps, as in a release build.  `ListNode` takes 16 bytes and is
aligned to 8.
-/

namespace AuraOS.KernelHeap

open IntervalLists

def addressSpace : Nat := 2 ^ 64

/-- `size_of::<ListNode>()`. -/
def nodeSize : Nat := 16

/-- `core::alloc::Layout`: the alignment is a power of two and the size, rounded
up to it, does not exceed `isize::MAX`. -/
structure Layout where
  size : Nat
  shift : Nat
  fits : size + 2 ^ shift ≤ 2 ^ 63
  deriving DecidableEq, Repr

def Layout.align (layout : Layout) : Nat :=
  2 ^ layout.shift

def alignUp (addr align : Nat) : Nat :=
  (addr + align - 1) % addressSpace / align * align

/-- `Layout::align_to`, which fails when the size no longer fits. -/
def Layout.alignTo (layout : Layout) (shift : Nat) : Option Layout :=
  if h : layout.size + 2 ^ max layout.shift shift ≤ 2 ^ 63 then
    some ⟨layout.size, max layout.shift shift, h⟩
  else none

theorem Layout.shift_le (layout : Layout) : layout.shift ≤ 63 := by
  have hfits := layout.fits
  by_contra hgt
  have hpow : 2 ^ 64 ≤ 2 ^ layout.shift := Nat.pow_le_pow_right (by decide) (by omega)
  omega

theorem Layout.pad_fits (layout : Layout) :
    (layout.size + layout.align - 1) / layout.align * layout.align + 2 ^ layout.shift ≤ 2 ^ 63 := by
  have hfits := layout.fits
  have hpos : 0 < 2 ^ layout.shift := Nat.two_pow_pos _
  have hmul : 2 ^ 63 = 2 ^ (63 - layout.shift) * 2 ^ layout.shift := by
    rw [← pow_add, Nat.sub_add_cancel layout.shift_le]
  have hlt : (layout.size + 2 ^ layout.shift - 1) / 2 ^ layout.shift < 2 ^ (63 - layout.shift) := by
    rw [Nat.div_lt_iff_lt_mul hpos, ← hmul]
    omega
  calc (layout.size + 2 ^ layout.shift - 1) / 2 ^ layout.shift * 2 ^ layout.shift + 2 ^ layout.shift
      = ((layout.size + 2 ^ layout.shift - 1) / 2 ^ layout.shift + 1) * 2 ^ layout.shift := by
        ring
    _ ≤ 2 ^ (63 - layout.shift) * 2 ^ layout.shift := Nat.mul_le_mul_right _ hlt
    _ = 2 ^ 63 := hmul.symm

/-- `Layout::pad_to_align`. -/
def Layout.padToAlign (layout : Layout) : Layout :=
  ⟨(layout.size + layout.align - 1) / layout.align * layout.align, layout.shift, layout.pad_fits⟩

/-- The block size and alignment for a layout; `none` when `expect` panics. -/
def sizeAlign (layout : Layout) : Option (Nat × Nat) := do
  let layout ← layout.alignTo 3
  let padded := layout.padToAlign
  return (max padded.size nodeSize, padded.align)

def endAddr (region : Interval) : Nat :=
  (region.start + region.size) % addressSpace

attribute [grind =] nodeSize addressSpace endAddr

def insertSorted (node : Interval) : List Interval → List Interval
  | [] => [node]
  | next :: rest =>
    if node.start < next.start then node :: next :: rest
    else next :: insertSorted node rest

/-- The loop of `coalesce` with `current` at the given node. -/
def coalesceFrom (current : Interval) : List Interval → List Interval
  | [] => [current]
  | next :: rest =>
    if 0 < current.size ∧ endAddr current = next.start then
      coalesceFrom ⟨current.start, (current.size + next.size) % addressSpace⟩ rest
    else current :: coalesceFrom next rest

/-- The loop starts at the sentinel, whose size 0 never lets it merge. -/
def coalesce : List Interval → List Interval
  | [] => []
  | first :: rest => coalesceFrom first rest

def addFreeRegion (free : List Interval) (addr size : Nat) : List Interval :=
  if size < nodeSize then free else coalesce (insertSorted ⟨addr, size⟩ free)

def allocFromRegion (region : Interval) (size align : Nat) : Option Nat :=
  let allocStart := alignUp region.start align
  let allocEnd := allocStart + size
  if addressSpace ≤ allocEnd then none
  else if endAddr region < allocEnd then none
  else
    let excessPrefix := (allocStart + addressSpace - region.start) % addressSpace
    if 0 < excessPrefix ∧ excessPrefix < nodeSize then none
    else
      let excessSuffix := endAddr region - allocEnd
      if 0 < excessSuffix ∧ excessSuffix < nodeSize then none
      else some allocStart

def findRegion (size align : Nat) : List Interval → Option (Interval × Nat × List Interval)
  | [] => none
  | region :: rest =>
    match allocFromRegion region size align with
    | some allocStart => some (region, allocStart, rest)
    | none =>
      (findRegion size align rest).map fun found =>
        (found.1, found.2.1, region :: found.2.2)

/-- The pointer returned, 0 if none, and the free list after the call.  The
outer `none` is the panic of `sizeAlign`. -/
def alloc (free : List Interval) (layout : Layout) : Option (Nat × List Interval) := do
  let (size, align) ← sizeAlign layout
  match findRegion size align free with
  | some (region, allocStart, rest) =>
    let allocEnd := (allocStart + size) % addressSpace
    let excessSuffix := (endAddr region + addressSpace - allocEnd) % addressSpace
    let excessPrefix := (allocStart + addressSpace - region.start) % addressSpace
    let rest := if 0 < excessSuffix then addFreeRegion rest allocEnd excessSuffix else rest
    let rest := if 0 < excessPrefix then addFreeRegion rest region.start excessPrefix else rest
    return (allocStart, rest)
  | none => return (0, free)

def dealloc (free : List Interval) (ptr : Nat) (layout : Layout) : Option (List Interval) := do
  let (size, _) ← sizeAlign layout
  return addFreeRegion free ptr size

def freeMemory (free : List Interval) : Nat :=
  free.foldl (fun total region => (total + region.size) % addressSpace) 0

/-- The memory handed to `init`: whole pages, valid for use by the kernel, which
lives in the lower half of the address space. -/
structure HeapRegion where
  start : Nat
  size : Nat
  start_pos : 0 < start
  start_aligned : start % 4096 = 0
  size_pos : 0 < size
  size_pages : size % 4096 = 0
  lower_half : start + size ≤ 2 ^ 63

structure Block where
  ptr : Nat
  layout : Layout
  deriving DecidableEq, Repr

/-- The block size that `size_align` gives for the layout. -/
def Block.paddedSize (block : Block) : Nat :=
  ((sizeAlign block.layout).map Prod.fst).getD 0

def Block.interval (block : Block) : Interval :=
  ⟨block.ptr, block.paddedSize⟩

structure HeapState where
  free : List Interval
  live : List Block
  deriving DecidableEq, Repr

def HeapState.boot (region : HeapRegion) : HeapState :=
  ⟨addFreeRegion [] region.start region.size, []⟩

inductive Request where
  | alloc (layout : Layout)
  | dealloc (block : Block)
  deriving DecidableEq, Repr

/-- One call of a client.  Clients free only what they hold, with the layout it
was allocated with; a panicking call has no successor. -/
def HeapState.apply (s : HeapState) : Request → Option HeapState
  | .alloc layout => do
      let (ptr, free) ← KernelHeap.alloc s.free layout
      return ⟨free, if ptr = 0 then s.live else ⟨ptr, layout⟩ :: s.live⟩
  | .dealloc block =>
    if block ∈ s.live then do
      let free ← KernelHeap.dealloc s.free block.ptr block.layout
      return ⟨free, s.live.erase block⟩
    else none

end AuraOS.KernelHeap
