import AuraOS.LittleEndian

/-!
The FAT32 driver.  A disk is an array of sectors, whose reads and writes succeed, with a
record of the writes; the module `Fat32Loops` has the loops with reads that fail.  The loops
that follow a cluster chain have fuel for more clusters than a table entry can name, so one
that runs out of it does not end.  Strings are the bytes of their UTF-8 encoding, and the
arithmetic on 32-bit numbers wraps around.
-/

namespace AuraOS.Fat32

open LittleEndian

def sectorSize : Nat := 512

def Sector := Nat → UInt8

inductive Region where
  | reserved | table | data
deriving DecidableEq, Repr

structure Write where
  region : Region
  lba : Nat
deriving DecidableEq, Repr

/-- The sectors, and the writes so far, which the driver does not look at. -/
structure Disk where
  sectors : Nat → Sector
  written : List Write

instance : CoeFun Disk fun _ => Nat → Sector := ⟨Disk.sectors⟩

def zeroSector : Sector := fun _ => 0

/-- `copy_from_slice` into a part of a buffer. -/
def Sector.copyAt (buf : Sector) (offset : Nat) (bytes : List UInt8) : Sector := fun i =>
  if i < offset then buf i else bytes.getD (i - offset) (buf i)

def Disk.writeSector (disk : Disk) (region : Region) (lba : Nat) (buf : Sector) : Disk :=
  ⟨Function.update disk.sectors lba buf, disk.written ++ [⟨region, lba⟩]⟩

def Sector.u32At (buf : Sector) (offset : Nat) : Nat :=
  leValue [buf offset, buf (offset + 1), buf (offset + 2), buf (offset + 3)]

def add32 (a b : Nat) : Nat := (a + b) % 2 ^ 32
def mul32 (a b : Nat) : Nat := a * b % 2 ^ 32

inductive AtaError where
  | driveNotReady | driveBusy | invalidLba | driveError | noDrive
deriving DecidableEq, Repr

inductive Fat32Error where
  | notFound | badSignature | corrupt | io (e : AtaError) | invalidName | notADirectory
  | alreadyExists
deriving DecidableEq, Repr

/-- The mapping of messages onto errors; most messages have no error of their own. -/
def Fat32Error.ofMessage (msg : String) : Fat32Error :=
  if msg ∈ ["Entry not found", "Path not found", "File not found", "Invalid path"] then .notFound
  else if msg ∈ ["Bad signature", "Invalid boot sector signature"] then .badSignature
  else if msg ∈ ["Not a directory", "Not a directory in path"] then .notADirectory
  else if msg ∈ ["Entry already exists", "Name already exists", "Directory already exists"] then
    .alreadyExists
  else if msg ∈ ["Invalid name", "Name too long"] then .invalidName
  else .corrupt

/-- Why a call gives no value: it returns an error, or it follows a chain that does not end. -/
inductive Stop where
  | error (e : Fat32Error)
  | endless
deriving DecidableEq, Repr

def fail {α : Type} (msg : String) : Except Stop α := .error (.error (.ofMessage msg))

def attrVolumeId : UInt8 := 0x08
def attrDirectory : UInt8 := 0x10
def attrArchive : UInt8 := 0x20
def attrLfn : UInt8 := 0x0F

def fatFree : Nat := 0x00000000
def fatBad : Nat := 0x0FFFFFF7
def fatEoc : Nat := 0x0FFFFFFF

attribute [grind =] add32 mul32 sectorSize fatBad

structure Fat32Fs where
  lbaStart : Nat
  sectorsPerCluster : Nat
  numFats : Nat
  sectorsPerFat : Nat
  rootCluster : Nat
  fatStartLba : Nat
  dataStartLba : Nat
  totalClusters : Nat
deriving DecidableEq, Repr

def isCluster (cluster : Nat) : Bool := 2 ≤ cluster && cluster < fatBad

def chainFuel : Nat := 2 ^ 28

section Driver

variable (fs : Fat32Fs)

def Fat32Fs.clusterToLba (cluster : Nat) : Nat :=
  add32 fs.dataStartLba (mul32 (cluster - 2) fs.sectorsPerCluster)

def Fat32Fs.clusterSectors (cluster : Nat) : List Nat :=
  (List.range fs.sectorsPerCluster).map (add32 (fs.clusterToLba cluster))

def Fat32Fs.readFatEntry (disk : Disk) (cluster : Nat) : Nat :=
  let fatOffset := mul32 cluster 4
  (disk (add32 fs.fatStartLba (fatOffset / sectorSize))).u32At (fatOffset % sectorSize) % 2 ^ 28

def fatEntryBytes (value : Nat) (old : UInt8) : List UInt8 :=
  leBytes 3 value ++ [(UInt8.ofNat (value / 2 ^ 24) &&& 0x0F) ||| (old &&& 0xF0)]

def Fat32Fs.writeFatCopy (cluster value : Nat) (disk : Disk) (fatIdx : Nat) : Disk :=
  let fatOffset := mul32 cluster 4
  let byteOffset := fatOffset % sectorSize
  let fatLba :=
    add32 (add32 fs.fatStartLba (mul32 fatIdx fs.sectorsPerFat)) (fatOffset / sectorSize)
  let buf := disk fatLba
  disk.writeSector .table fatLba
    (buf.copyAt byteOffset (fatEntryBytes value (buf (byteOffset + 3))))

def Fat32Fs.writeFatEntry (disk : Disk) (cluster value : Nat) : Disk :=
  (List.range fs.numFats).foldl (fs.writeFatCopy cluster value) disk

def Fat32Fs.allocateCluster (disk : Disk) (prevCluster : Option Nat) : Except Stop Nat × Disk :=
  match (List.range' 3 (fs.totalClusters - 3)).find? (fs.readFatEntry disk · == fatFree) with
  | none => (fail "FAT32: No free clusters available (disk full)", disk)
  | some c =>
    let disk := fs.writeFatEntry disk c fatEoc
    let disk := match prevCluster with
      | some prev => fs.writeFatEntry disk prev c
      | none => disk
    (.ok c, (fs.clusterSectors c).foldl
      (fun disk lba => disk.writeSector .data lba zeroSector) disk)

/-- Every entry that the loop visits is cleared, so it visits no cluster three times and the
fuel is enough. -/
def Fat32Fs.freeChainFrom (fs : Fat32Fs) : Nat → Nat → Disk → Disk
  | 0, _, disk => disk
  | fuel + 1, cluster, disk =>
    if isCluster cluster then
      fs.freeChainFrom fuel (fs.readFatEntry disk cluster) (fs.writeFatEntry disk cluster fatFree)
    else disk

def Fat32Fs.freeClusterChain (disk : Disk) (cluster : Nat) : Disk :=
  fs.freeChainFrom (2 * chainFuel) cluster disk

def slash : UInt8 := 0x2F
def dot : UInt8 := 0x2E
def space : UInt8 := 0x20

def asciiUpper (byte : UInt8) : UInt8 :=
  if 0x61 ≤ byte ∧ byte ≤ 0x7A then byte - 0x20 else byte

def toAsciiUppercase (name : List UInt8) : List UInt8 := name.map asciiUpper

def utf8Rest (byte : UInt8) : Option (List (UInt8 × UInt8)) :=
  let cont : UInt8 × UInt8 := (0x80, 0xBF)
  if byte < 0x80 then some []
  else if byte < 0xC2 then none
  else if byte < 0xE0 then some [cont]
  else if byte = 0xE0 then some [(0xA0, 0xBF), cont]
  else if byte = 0xED then some [(0x80, 0x9F), cont]
  else if byte < 0xF0 then some [cont, cont]
  else if byte = 0xF0 then some [(0x90, 0xBF), cont, cont]
  else if byte < 0xF4 then some [cont, cont, cont]
  else if byte = 0xF4 then some [(0x80, 0x8F), cont, cont]
  else none

def utf8Step : List (UInt8 × UInt8) → UInt8 → Option (List (UInt8 × UInt8))
  | [], byte => utf8Rest byte
  | (low, high) :: rest, byte => if low ≤ byte ∧ byte ≤ high then some rest else none

def utf8Valid (bytes : List UInt8) : Bool :=
  bytes.foldlM utf8Step [] == some []

/-- `from_utf8(raw).unwrap_or("")`. -/
def fromUtf8OrEmpty (raw : List UInt8) : List UInt8 :=
  if utf8Valid raw then raw else []

def dropWhiteSpace : List UInt8 → Option (List UInt8)
  | [] => none
  | c :: rest =>
    if (0x09 ≤ c ∧ c ≤ 0x0D) ∨ c = 0x20 then some rest
    else
      match rest with
      | [] => none
      | b :: rest =>
        if b = 0xC2 ∧ (c = 0x85 ∨ c = 0xA0) then some rest
        else
          match rest with
          | [] => none
          | a :: rest =>
            if (a = 0xE1 ∧ b = 0x9A ∧ c = 0x80) ∨
                (a = 0xE2 ∧ b = 0x80 ∧ ((0x80 ≤ c ∧ c ≤ 0x8A) ∨ c = 0xA8 ∨ c = 0xA9 ∨ c = 0xAF)) ∨
                (a = 0xE2 ∧ b = 0x81 ∧ c = 0x9F) ∨ (a = 0xE3 ∧ b = 0x80 ∧ c = 0x80) then
              some rest
            else none

def trimEndFrom : Nat → List UInt8 → List UInt8
  | 0, reversed => reversed
  | fuel + 1, reversed =>
    match dropWhiteSpace reversed with
    | none => reversed
    | some rest => trimEndFrom fuel rest

def trimEnd (name : List UInt8) : List UInt8 :=
  (trimEndFrom name.length name.reverse).reverse

def trimMatches (byte : UInt8) (s : List UInt8) : List UInt8 :=
  ((s.dropWhile (· == byte)).reverse.dropWhile (· == byte)).reverse

def splitLast (path : List UInt8) : List UInt8 × List UInt8 :=
  let filename := (path.reverse.takeWhile (· != slash)).reverse
  (path.take (path.length - filename.length - 1), filename)

/-- `split('/')` without the empty parts. -/
def segments (path : List UInt8) : List (List UInt8) :=
  (path.splitOn slash).filter (· ≠ [])

def padTo (len : Nat) (bytes : List UInt8) : List UInt8 :=
  bytes.take len ++ List.replicate (len - (bytes.take len).length) space

def toShortName (name : List UInt8) : List UInt8 × List UInt8 :=
  let upper := toAsciiUppercase name
  let base := upper.takeWhile (· != dot)
  let ext := ((upper.dropWhile (· != dot)).drop 1).takeWhile (· != dot)
  (padTo 8 base, padTo 3 ext)

def Slot := Fin 32 → UInt8

instance neZeroSlot : NeZero 32 := ⟨by decide⟩

def slotsPerSector : Nat := sectorSize / 32

def Sector.slot (buf : Sector) (i : Nat) : Slot := fun k => buf (32 * i + k)

def Sector.slots (buf : Sector) : List Slot := (List.range slotsPerSector).map buf.slot

structure FatDirEntry where
  name : List UInt8
  isDirectory : Bool
  firstCluster : Nat
  fileSize : Nat
  attributes : UInt8
deriving DecidableEq, Repr

def Slot.attr (slot : Slot) : UInt8 := slot 11

def Slot.isSkipped (slot : Slot) : Bool :=
  slot.attr == attrLfn || (slot.attr &&& attrVolumeId != 0 && slot.attr &&& attrDirectory == 0)

def Slot.fullName (slot : Slot) : List UInt8 :=
  let name := trimEnd (fromUtf8OrEmpty
    [slot 0, slot 1, slot 2, slot 3, slot 4, slot 5, slot 6, slot 7])
  let ext := trimEnd (fromUtf8OrEmpty [slot 8, slot 9, slot 10])
  if ext = [] then name else name ++ dot :: ext

def Slot.firstCluster (slot : Slot) : Nat :=
  leValue [slot 26, slot 27] + 2 ^ 16 * leValue [slot 20, slot 21]

def Slot.fileSize (slot : Slot) : Nat :=
  leValue [slot 28, slot 29, slot 30, slot 31]

def Slot.entry (slot : Slot) : FatDirEntry :=
  ⟨slot.fullName, slot.attr &&& attrDirectory != 0, slot.firstCluster, slot.fileSize, slot.attr⟩

def listSlots : List Slot → List FatDirEntry × Bool
  | [] => ([], false)
  | slot :: rest =>
    if slot 0 = 0x00 then ([], true)
    else if slot 0 = 0xE5 ∨ slot.isSkipped then listSlots rest
    else
      let (entries, ended) := listSlots rest
      (slot.entry :: entries, ended)

def listSectors (disk : Disk) : List Nat → List FatDirEntry × Bool
  | [] => ([], false)
  | lba :: rest =>
    match listSlots (disk lba).slots with
    | (entries, true) => (entries, true)
    | (entries, false) =>
      let (more, ended) := listSectors disk rest
      (entries ++ more, ended)

def Fat32Fs.listFrom (fs : Fat32Fs) (disk : Disk) : Nat → Nat → Except Stop (List FatDirEntry)
  | 0, _ => .error .endless
  | fuel + 1, cluster =>
    if isCluster cluster then
      match listSectors disk (fs.clusterSectors cluster) with
      | (entries, true) => .ok entries
      | (entries, false) =>
        match fs.listFrom disk fuel (fs.readFatEntry disk cluster) with
        | .error stop => .error stop
        | .ok more => .ok (entries ++ more)
    else .ok []

def Fat32Fs.listDirectoryCluster (disk : Disk) (cluster : Nat) : Except Stop (List FatDirEntry) :=
  fs.listFrom disk chainFuel cluster

def findInSlots (nameUpper : List UInt8) : List (Slot × Nat) → Option (Option (FatDirEntry × Nat))
  | [] => none
  | (slot, i) :: rest =>
    if slot 0 = 0x00 then some none
    else if slot 0 = 0xE5 ∨ slot.isSkipped then findInSlots nameUpper rest
    else if toAsciiUppercase slot.fullName = nameUpper then some (some (slot.entry, i))
    else findInSlots nameUpper rest

def findInSectors (nameUpper : List UInt8) (disk : Disk) :
    List Nat → Option (Option (FatDirEntry × Nat × Nat))
  | [] => none
  | lba :: rest =>
    match findInSlots nameUpper (disk lba).slots.zipIdx with
    | some none => some none
    | some (some (entry, i)) => some (some (entry, lba, i))
    | none => findInSectors nameUpper disk rest

def Fat32Fs.findFrom (fs : Fat32Fs) (disk : Disk) (nameUpper : List UInt8) :
    Nat → Nat → Except Stop (Option (FatDirEntry × Nat × Nat))
  | 0, _ => .error .endless
  | fuel + 1, cluster =>
    if isCluster cluster then
      match findInSectors nameUpper disk (fs.clusterSectors cluster) with
      | some found => .ok found
      | none => fs.findFrom disk nameUpper fuel (fs.readFatEntry disk cluster)
    else .ok none

def Fat32Fs.findEntryInDir (disk : Disk) (cluster : Nat) (name : List UInt8) :
    Except Stop (Option (FatDirEntry × Nat × Nat)) :=
  fs.findFrom disk (toAsciiUppercase name) chainFuel cluster

/-- The loop of `resolve_path` over the segments. -/
def Fat32Fs.resolveFrom (fs : Fat32Fs) (disk : Disk) :
    Nat → List (List UInt8) → Except Stop (Option FatDirEntry × Nat)
  | _, [] => fail "Failed to resolve path"
  | cluster, [segment] =>
    match fs.findEntryInDir disk cluster segment with
    | .error stop => .error stop
    | .ok (some (entry, _)) => .ok (some entry, cluster)
    | .ok none => .ok (none, cluster)
  | cluster, segment :: rest =>
    match fs.findEntryInDir disk cluster segment with
    | .error stop => .error stop
    | .ok (some (entry, _)) =>
      if entry.isDirectory then fs.resolveFrom disk entry.firstCluster rest
      else fail "Component in path is not a directory"
    | .ok none => fail "Directory in path not found"

def Fat32Fs.resolvePath (disk : Disk) (path : List UInt8) :
    Except Stop (Option FatDirEntry × Nat) :=
  let trimmed := trimMatches slash path
  if trimmed = [] then
    .ok (some ⟨[slash], true, fs.rootCluster, 0, attrDirectory⟩, fs.rootCluster)
  else fs.resolveFrom disk fs.rootCluster (segments trimmed)

def Fat32Fs.resolveParent (disk : Disk) (parentDir : List UInt8) : Except Stop Nat :=
  match fs.resolvePath disk parentDir with
  | .error stop => .error stop
  | .ok (some entry, _) =>
    if entry.isDirectory then .ok entry.firstCluster else fail "Parent path is not a directory"
  | .ok (none, _) => fail "Parent directory not found"

def Fat32Fs.allocateChain (fs : Fat32Fs) : Nat → Nat → Option Nat → Disk → Except Stop Nat × Disk
  | 0, firstCluster, _, disk => (.ok firstCluster, disk)
  | count + 1, firstCluster, prevCluster, disk =>
    match fs.allocateCluster disk prevCluster with
    | (.error stop, disk) => (.error stop, disk)
    | (.ok c, disk) =>
      fs.allocateChain count (if firstCluster = 0 then c else firstCluster) (some c) disk

def writeSectors : List Nat → List UInt8 → Disk → List UInt8 × Disk
  | [], data, disk => (data, disk)
  | lba :: rest, data, disk =>
    if data = [] then ([], disk)
    else
      writeSectors rest (data.drop sectorSize)
        (disk.writeSector .data lba (zeroSector.copyAt 0 (data.take sectorSize)))

/-- Every cluster takes a byte, so the length of the data is enough fuel. -/
def Fat32Fs.writeDataFrom (fs : Fat32Fs) : Nat → Nat → List UInt8 → Disk → Disk
  | 0, _, _, disk => disk
  | fuel + 1, cluster, data, disk =>
    if isCluster cluster ∧ data ≠ [] then
      let (rest, disk) := writeSectors (fs.clusterSectors cluster) data disk
      fs.writeDataFrom fuel (fs.readFatEntry disk cluster) rest disk
    else disk

def clusterHigh (cluster : Nat) : Nat := cluster / 2 ^ 16 % 2 ^ 16
def clusterLow (cluster : Nat) : Nat := cluster % 2 ^ 16

def entryBytes (name ext : List UInt8) (attr : UInt8) (firstCluster fileSize : Nat) : List UInt8 :=
  name ++ ext ++ [attr] ++ List.replicate 8 0 ++ leBytes 2 (clusterHigh firstCluster) ++
    List.replicate 4 0 ++ leBytes 2 (clusterLow firstCluster) ++ leBytes 4 fileSize

def Sector.freeSlot (buf : Sector) : Option Nat :=
  (List.range slotsPerSector).find? fun i => buf (32 * i) == 0x00 || buf (32 * i) == 0xE5

def insertInSectors (bytes : List UInt8) : List Nat → Disk → Option Disk
  | [], _ => none
  | lba :: rest, disk =>
    match (disk lba).freeSlot with
    | some i => some (disk.writeSector .data lba ((disk lba).copyAt (32 * i) bytes))
    | none => insertInSectors bytes rest disk

def Fat32Fs.insertFrom (fs : Fat32Fs) (bytes : List UInt8) :
    Nat → Nat → Disk → Except Stop Unit × Disk
  | 0, _, disk => (.error .endless, disk)
  | fuel + 1, cluster, disk =>
    if isCluster cluster then
      match insertInSectors bytes (fs.clusterSectors cluster) disk with
      | some disk => (.ok (), disk)
      | none =>
        let next := fs.readFatEntry disk cluster
        if fatBad ≤ next then
          match fs.allocateCluster disk (some cluster) with
          | (.error stop, disk) => (.error stop, disk)
          | (.ok newC, disk) =>
            (.ok (), disk.writeSector .data (fs.clusterToLba newC) (zeroSector.copyAt 0 bytes))
        else fs.insertFrom bytes fuel next disk
    else (fail "FAT32: Directory slot allocation failure", disk)

def Fat32Fs.insertDirEntry (disk : Disk) (cluster : Nat) (name : List UInt8 × List UInt8)
    (attr : UInt8) (firstCluster fileSize : Nat) :
    Except Stop Unit × Disk :=
  fs.insertFrom (entryBytes name.1 name.2 attr firstCluster fileSize) chainFuel cluster disk

def updateEntry (buf : Sector) (idx firstCluster fileSize : Nat) : Sector :=
  ((buf.copyAt (32 * idx + 20) (leBytes 2 (clusterHigh firstCluster))).copyAt (32 * idx + 26)
    (leBytes 2 (clusterLow firstCluster))).copyAt (32 * idx + 28) (leBytes 4 fileSize)

def Fat32Fs.clustersNeeded (len : Nat) : Nat :=
  let bytesPerCluster := fs.sectorsPerCluster * sectorSize
  max ((len + bytesPerCluster - 1) / bytesPerCluster) 1

/-- The end of `write_file`: the entry of the new chain. -/
def Fat32Fs.storeEntry (disk : Disk) (parentCluster : Nat) (filename : List UInt8)
    (existing : Option (FatDirEntry × Nat × Nat)) (firstCluster fileSize : Nat) :
    Except Stop Unit × Disk :=
  match existing with
  | some (oldEntry, secLba, entryIdx) =>
    let disk := fs.freeClusterChain disk oldEntry.firstCluster
    (.ok (), disk.writeSector .data secLba
      (updateEntry (disk secLba) entryIdx firstCluster fileSize))
  | none =>
    fs.insertDirEntry disk parentCluster (toShortName filename) attrArchive firstCluster fileSize

def Fat32Fs.writeFile (disk : Disk) (path data : List UInt8) : Except Stop Unit × Disk :=
  let (parentDir, filename) := splitLast (trimMatches slash path)
  if filename = [] then (fail "Invalid empty filename", disk)
  else
    match fs.resolveParent disk parentDir with
    | .error stop => (.error stop, disk)
    | .ok parentCluster =>
      match fs.findEntryInDir disk parentCluster filename with
      | .error stop => (.error stop, disk)
      | .ok existing =>
        match fs.allocateChain (fs.clustersNeeded data.length) 0 none disk with
        | (.error stop, disk) => (.error stop, disk)
        | (.ok firstCluster, disk) =>
          let disk := fs.writeDataFrom data.length firstCluster data disk
          -- `data.len() as u32`
          fs.storeEntry disk parentCluster filename existing firstCluster (data.length % 2 ^ 32)

def dirSector (newCluster parentTarget : Nat) : Sector :=
  (zeroSector.copyAt 0 (entryBytes (padTo 8 [dot]) (padTo 3 []) attrDirectory newCluster 0)).copyAt
    32 (entryBytes (padTo 8 [dot, dot]) (padTo 3 []) attrDirectory parentTarget 0)

def Fat32Fs.createDir (disk : Disk) (path : List UInt8) : Except Stop Nat × Disk :=
  let (parentDir, dirname) := splitLast (trimMatches slash path)
  if dirname = [] then (fail "Invalid empty directory name", disk)
  else
    match fs.resolveParent disk parentDir with
    | .error stop => (.error stop, disk)
    | .ok parentCluster =>
      match fs.findEntryInDir disk parentCluster dirname with
      | .error stop => (.error stop, disk)
      | .ok (some _) => (fail "Directory already exists", disk)
      | .ok none =>
        match fs.allocateCluster disk none with
        | (.error stop, disk) => (.error stop, disk)
        | (.ok newCluster, disk) =>
          let parentTarget := if parentCluster = fs.rootCluster then 0 else parentCluster
          let disk := disk.writeSector .data (fs.clusterToLba newCluster)
            (dirSector newCluster parentTarget)
          match fs.insertDirEntry disk parentCluster (toShortName dirname) attrDirectory
            newCluster 0 with
          | (.error stop, disk) => (.error stop, disk)
          | (.ok (), disk) => (.ok newCluster, disk)

def Fat32Fs.deleteEntry (disk : Disk) (path : List UInt8) : Except Stop Unit × Disk :=
  let (parentDir, filename) := splitLast (trimMatches slash path)
  match fs.resolveParent disk parentDir with
  | .error stop => (.error stop, disk)
  | .ok parentCluster =>
    match fs.findEntryInDir disk parentCluster filename with
    | .error stop => (.error stop, disk)
    | .ok none => (fail "File not found", disk)
    | .ok (some (entry, secLba, entryIdx)) =>
      let disk := fs.freeClusterChain disk entry.firstCluster
      (.ok (), disk.writeSector .data secLba ((disk secLba).copyAt (32 * entryIdx) [0xE5]))

end Driver

end AuraOS.Fat32
