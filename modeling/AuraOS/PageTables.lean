import AuraOS.PhysicalFrames

/-!
Four-level x86-64 page tables in physical memory.  Levels are counted from the
leaves: a PML4 has level 3, a page table level 0.  Page-table frames lie in the
identity-mapped window, so the kernel reads and writes them at their physical
address.
-/

namespace AuraOS.PageTables

open PhysicalFrames

variable {mem mem' : Mem} {virt level table frame t : Nat}

def Mem := Nat → Fin 512 → BitVec 64

instance neZeroEntries : NeZero 512 := ⟨by decide⟩

def present : BitVec 64 := 0x1
def writable : BitVec 64 := 0x2
def userAccessible : BitVec 64 := 0x4
def hugePage : BitVec 64 := 0x80
def noExecute : BitVec 64 := 0x8000000000000000

def addrMask : BitVec 64 := 0x000FFFFFFFFFF000
def flagsMask : BitVec 64 := 0xFFF0000000000FFF

def hasFlag (entry flag : BitVec 64) : Bool :=
  entry &&& flag != 0

def isPresent (entry : BitVec 64) : Bool :=
  hasFlag entry present

def entryAddr (entry : BitVec 64) : Nat :=
  (entry &&& addrMask).toNat

def entryFlags (entry : BitVec 64) : BitVec 64 :=
  entry &&& flagsMask

/-- The word that `PageTableEntry::set` stores. -/
def makeEntry (addr : Nat) (flags : BitVec 64) : BitVec 64 :=
  (BitVec.ofNat 64 addr &&& addrMask) ||| (flags &&& flagsMask)

/-- The index into a table of the given level: `p1_index` to `p4_index`. -/
def tableIndex (level virt : Nat) : Fin 512 :=
  Fin.ofNat 512 (virt / 2 ^ (12 + 9 * level))

def Mem.setEntry (mem : Mem) (table : Nat) (index : Fin 512) (entry : BitVec 64) : Mem :=
  fun t i => if t = table ∧ i = index then entry else mem t i

def Mem.zeroFrame (mem : Mem) (frame : Nat) : Mem :=
  fun t i => if t = frame then 0 else mem t i

def Mem.copyTable (mem : Mem) (target source : Nat) : Mem :=
  fun t i => if t = target then mem source i else mem t i

def Mem.writeByte (mem : Mem) (frame offset : Nat) (byte : BitVec 8) : Mem :=
  let index := Fin.ofNat 512 (offset / 8)
  let shift := 8 * (offset % 8)
  mem.setEntry frame index
    ((mem frame index &&& ~~~ (0xFF#64 <<< shift)) ||| (byte.setWidth 64 <<< shift))

def Mem.copyBytes (frame : Nat) : Nat → List (BitVec 8) → Mem → Mem
  | _, [], mem => mem
  | offset, byte :: rest, mem =>
    Mem.copyBytes frame (offset + 1) rest (mem.writeByte frame offset byte)

def isLeaf (level : Nat) (entry : BitVec 64) : Bool :=
  level = 0 || (level ≤ 2 && hasFlag entry hugePage)

def leafFrame (level : Nat) (entry : BitVec 64) (virt : Nat) : Nat :=
  let size := 2 ^ (12 + 9 * level)
  entryAddr entry / size * size + virt % size / pageSize * pageSize

/-- The processor's walk from a table: the frame and the entries on the way. -/
def walk (mem : Mem) (virt : Nat) : Nat → Nat → Option (Nat × List (BitVec 64))
  | 0, table =>
    let entry := mem table (tableIndex 0 virt)
    if isPresent entry then some (leafFrame 0 entry virt, [entry]) else none
  | level + 1, table =>
    let entry := mem table (tableIndex (level + 1) virt)
    if isPresent entry then
      if isLeaf (level + 1) entry then some (leafFrame (level + 1) entry virt, [entry])
      else (walk mem virt level (entryAddr entry)).map fun found =>
        (found.1, entry :: found.2)
    else none

structure Translation where
  frame : Nat
  writable : Bool
  user : Bool
  noExecute : Bool
  deriving DecidableEq, Repr

def translate (mem : Mem) (root virt : Nat) : Option Translation :=
  (walk mem virt 3 root).map fun found =>
    ⟨found.1, found.2.all (hasFlag · PageTables.writable), found.2.all (hasFlag · userAccessible),
      found.2.any (hasFlag · PageTables.noExecute)⟩

def walkTables (mem : Mem) (virt : Nat) : Nat → Nat → List Nat
  | 0, table => [table]
  | level + 1, table =>
    let entry := mem table (tableIndex (level + 1) virt)
    table :: if isPresent entry && !isLeaf (level + 1) entry then
      walkTables mem virt level (entryAddr entry) else []

theorem walk_congr (level table : Nat)
    (h : ∀ t ∈ walkTables mem virt level table, ∀ i, mem' t i = mem t i) :
    walk mem' virt level table = walk mem virt level table := by
  induction level generalizing table with
  | zero =>
    simp only [walk, h table (by simp [walkTables])]
  | succ level ih =>
    have hentry := h table (by simp [walkTables]) (tableIndex (level + 1) virt)
    simp only [walk, hentry]
    split
    · rename_i hpresent
      split
      · rfl
      · rename_i hleaf
        rw [ih]
        intro t ht
        refine h t ?_
        simp only [walkTables, hpresent, Bool.eq_false_iff.mpr hleaf, Bool.not_false,
          Bool.and_true, if_true]
        exact .tail _ ht
    · rfl

theorem walk_eq_of_entry {table' : Nat}
    (h : mem table (tableIndex level virt) = mem table' (tableIndex level virt)) :
    walk mem virt level table = walk mem virt level table' := by
  cases level with
  | zero => simp only [walk, h]
  | succ level => simp only [walk, h]

theorem walk_supervisor {found : Nat × List (BitVec 64)}
    (hwalk : walk mem virt level table = some found)
    (hflag : hasFlag (mem table (tableIndex level virt)) userAccessible = false) :
    found.2.all (hasFlag · userAccessible) = false := by
  cases level with
  | zero =>
    rw [walk] at hwalk
    split at hwalk
    · cases hwalk
      simp [hflag]
    · cases hwalk
  | succ level =>
    rw [walk] at hwalk
    split at hwalk
    · split at hwalk
      · cases hwalk
        simp [hflag]
      · obtain ⟨rest, -, rfl⟩ := Option.map_eq_some_iff.mp hwalk
        simp [hflag]
    · cases hwalk

theorem walkTables_congr (level table : Nat)
    (h : ∀ t ∈ walkTables mem virt level table, ∀ i, mem' t i = mem t i) :
    walkTables mem' virt level table = walkTables mem virt level table := by
  induction level generalizing table with
  | zero => rfl
  | succ level ih =>
    have hentry := h table (by simp [walkTables]) (tableIndex (level + 1) virt)
    simp only [walkTables, hentry]
    split
    · rename_i hnext
      rw [ih]
      intro t ht
      refine h t ?_
      simp only [walkTables, hnext, if_true]
      exact .tail _ ht
    · rfl

theorem translate_congr {root : Nat}
    (h : ∀ t ∈ walkTables mem virt 3 root, ∀ i, mem' t i = mem t i) :
    translate mem' root virt = translate mem root virt := by
  simp only [translate, walk_congr 3 root h]

section Entries

theorem addrMask_and_flagsMask : addrMask &&& flagsMask = 0 := by decide

theorem flagsMask_and_addrMask : flagsMask &&& addrMask = 0 := by decide

theorem makeEntry_and_addrMask (addr : Nat) (flags : BitVec 64) :
    makeEntry addr flags &&& addrMask = BitVec.ofNat 64 addr &&& addrMask := by
  rw [makeEntry, BitVec.and_or_distrib_right, BitVec.and_assoc, BitVec.and_self,
    BitVec.and_assoc, flagsMask_and_addrMask]
  simp

theorem hasFlag_makeEntry {flag : BitVec 64} (haddr : addrMask &&& flag = 0)
    (hflags : flagsMask &&& flag = flag) (addr : Nat) (flags : BitVec 64) :
    hasFlag (makeEntry addr flags) flag = hasFlag flags flag := by
  rw [hasFlag, makeEntry, BitVec.and_or_distrib_right, BitVec.and_assoc, haddr, BitVec.and_assoc,
    hflags]
  simp [hasFlag]

@[simp] theorem isPresent_makeEntry (addr : Nat) (flags : BitVec 64) :
    isPresent (makeEntry addr flags) = isPresent flags :=
  hasFlag_makeEntry (by decide) (by decide) addr flags

theorem entryFlags_makeEntry (addr : Nat) (flags : BitVec 64) :
    entryFlags (makeEntry addr flags) = flags &&& flagsMask := by
  rw [entryFlags, makeEntry, BitVec.and_or_distrib_right, BitVec.and_assoc,
    addrMask_and_flagsMask, BitVec.and_assoc, BitVec.and_self]
  simp

def IsFrame (addr : Nat) : Prop :=
  addr % pageSize = 0 ∧ addr < 2 ^ 52

theorem testBit_addrMask (i : Nat) :
    addrMask.toNat.testBit i = (decide (12 ≤ i) && decide (i < 52)) := by
  have hmask : addrMask.toNat = (2 ^ 40 - 1) <<< 12 := by decide
  rw [hmask, Nat.testBit_shiftLeft, Nat.testBit_two_pow_sub_one]
  by_cases h : 12 ≤ i
  · simp only [ge_iff_le, h, decide_true, Bool.true_and]
    exact decide_eq_decide.mpr (by omega)
  · simp [h]

theorem entryAddr_makeEntry {addr : Nat} (h : IsFrame addr) (flags : BitVec 64) :
    entryAddr (makeEntry addr flags) = addr := by
  obtain ⟨halign, hlt⟩ := h
  rw [entryAddr, makeEntry_and_addrMask, BitVec.toNat_and, BitVec.toNat_ofNat,
    Nat.mod_eq_of_lt (Nat.lt_trans hlt (by decide))]
  refine Nat.eq_of_testBit_eq fun i => ?_
  rw [Nat.testBit_and, testBit_addrMask]
  by_cases hlow : i < 12
  · have hzero : addr.testBit i = false := by
      have hshift : addr = (addr / 2 ^ 12) <<< 12 := by
        simp only [Nat.shiftLeft_eq, pageSize] at *
        omega
      rw [hshift, Nat.testBit_shiftLeft]
      simp [Nat.not_le.mpr hlow]
    simp [hzero]
  · by_cases hhigh : i < 52
    · simp [Nat.not_lt.mp hlow, hhigh]
    · have hzero : addr.testBit i = false :=
        Nat.testBit_lt_two_pow
          (Nat.lt_of_lt_of_le hlt (Nat.pow_le_pow_right (by decide) (Nat.not_lt.mp hhigh)))
      simp [hzero]

theorem isFrame_frameAddr (h : frame < pmmFrames) : IsFrame (frameAddr frame) := by
  have hwindow := frameAddr_window h
  refine ⟨hwindow.2, ?_⟩
  have hend : pmmEnd < 2 ^ 52 := by decide
  omega

end Entries

section Writes

variable {mem : Mem}

@[simp] theorem setEntry_self (table : Nat) (index : Fin 512) (entry : BitVec 64) :
    mem.setEntry table index entry table index = entry := by
  simp [Mem.setEntry]

theorem setEntry_of_ne (h : t ≠ table) (index i : Fin 512) (entry : BitVec 64) :
    mem.setEntry table index entry t i = mem t i := by
  simp [Mem.setEntry, h]

theorem writeByte_of_ne (mem : Mem) (frame offset : Nat) (byte : BitVec 8) :
    ∀ t ≠ frame, ∀ i, mem.writeByte frame offset byte t i = mem t i :=
  fun _ h i => setEntry_of_ne h _ i _

theorem setEntry_apply (table t : Nat) (index i : Fin 512) (entry : BitVec 64) :
    mem.setEntry table index entry t i = if t = table ∧ i = index then entry else mem t i :=
  rfl

theorem copyBytes_of_ne (h : t ≠ frame) (offset : Nat) (bytes : List (BitVec 8)) (mem : Mem)
    (i : Fin 512) : Mem.copyBytes frame offset bytes mem t i = mem t i := by
  induction bytes generalizing offset mem with
  | nil => rfl
  | cons byte rest ih =>
    rw [Mem.copyBytes, ih]
    exact setEntry_of_ne h _ i _

theorem setEntry_same {index : Fin 512} : mem.setEntry table index (mem table index) = mem := by
  funext t i
  simp only [Mem.setEntry]
  split
  · rename_i h
    rw [h.1, h.2]
  · rfl

end Writes

end AuraOS.PageTables
