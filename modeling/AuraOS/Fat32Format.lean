import AuraOS.Fat32

namespace AuraOS.Fat32

open LittleEndian

def reservedSectors : Nat := 32

attribute [grind =] reservedSectors

/-- The start of `format`: the sizes of the parts of the volume. -/
def formatGeometry (lbaStart totalSectors : Nat) : Except Stop Fat32Fs :=
  if totalSectors < 1024 then fail "Volume too small for FAT32"
  else
    let sectorsPerCluster := 1
    let numFats := 2
    let approxDataSectors := totalSectors - reservedSectors
    let approxClusters := approxDataSectors / sectorsPerCluster
    let fatBytes := mul32 (add32 approxClusters 2) 4
    let sectorsPerFat := max (add32 fatBytes (sectorSize - 1) / sectorSize) 16
    let fatStartLba := add32 lbaStart reservedSectors
    let dataStartLba := add32 fatStartLba (mul32 numFats sectorsPerFat)
    let dataEnd := add32 lbaStart totalSectors
    if dataEnd ≤ dataStartLba then fail "Reserved & FAT sectors exceed volume size"
    else
      .ok
        { lbaStart, sectorsPerCluster, numFats, sectorsPerFat, fatStartLba, dataStartLba
          rootCluster := 2
          totalClusters := (dataEnd - dataStartLba) / sectorsPerCluster }

def sectorWith (parts : List (Nat × List UInt8)) : Sector :=
  parts.foldl (fun buf part => buf.copyAt part.1 part.2) zeroSector

def bootSector (fs : Fat32Fs) (totalSectors : Nat) (labelBytes : List UInt8) : Sector :=
  sectorWith
    [(0, [0xEB, 0x58, 0x90]),
      (3, [0x41, 0x55, 0x52, 0x41, 0x5F, 0x4F, 0x53, 0x20]),
      (11, leBytes 2 sectorSize), (13, leBytes 1 fs.sectorsPerCluster),
      (14, leBytes 2 reservedSectors), (16, leBytes 1 fs.numFats), (17, leBytes 2 0),
      (19, leBytes 2 0), (21, [0xF8]), (22, leBytes 2 0), (24, leBytes 2 63),
      (26, leBytes 2 255), (28, leBytes 4 fs.lbaStart), (32, leBytes 4 totalSectors),
      (36, leBytes 4 fs.sectorsPerFat), (40, leBytes 2 0), (42, leBytes 2 0),
      (44, leBytes 4 fs.rootCluster), (48, leBytes 2 1), (50, leBytes 2 6), (64, [0x80]),
      (66, [0x29]), (67, leBytes 4 0x20260909), (71, labelBytes),
      (82, [0x46, 0x41, 0x54, 0x33, 0x32, 0x20, 0x20, 0x20]), (510, [0x55, 0xAA])]

def fsInfoSector (totalClusters : Nat) : Sector :=
  sectorWith
    [(0, leBytes 4 0x41615252), (484, leBytes 4 0x61417272),
      (488, leBytes 4 (totalClusters - 1)), (492, leBytes 4 3), (508, leBytes 4 0xAA550000)]

def fatSector0 : Sector :=
  sectorWith [(0, leBytes 4 0x0FFFFFF8), (4, leBytes 4 fatEoc), (8, leBytes 4 fatEoc)]

def rootSector (labelBytes : List UInt8) : Sector :=
  sectorWith [(0, labelBytes), (11, [attrVolumeId])]

/-- The rest of `format`: the sectors it writes. -/
def Fat32Fs.formatSectors (fs : Fat32Fs) (totalSectors : Nat) (labelBytes : List UInt8)
    (disk : Disk) : Disk :=
  let fat1Lba := fs.fatStartLba
  let fat2Lba := add32 fat1Lba fs.sectorsPerFat
  let disk := disk.writeSector .reserved fs.lbaStart (bootSector fs totalSectors labelBytes)
  let disk := disk.writeSector .reserved (add32 fs.lbaStart 1) (fsInfoSector fs.totalClusters)
  let disk := disk.writeSector .table fat1Lba fatSector0
  let disk := disk.writeSector .table fat2Lba fatSector0
  let disk := (List.range' 1 (fs.sectorsPerFat - 1)).foldl (fun disk s =>
    (disk.writeSector .table (add32 fat1Lba s) zeroSector).writeSector .table
      (add32 fat2Lba s) zeroSector) disk
  let disk := disk.writeSector .data fs.dataStartLba (rootSector labelBytes)
  (List.range' 1 (fs.sectorsPerCluster - 1)).foldl (fun disk s =>
    disk.writeSector .data (add32 fs.dataStartLba s) zeroSector) disk

def format (disk : Disk) (lbaStart totalSectors : Nat) (volumeLabel : List UInt8) :
    Except Stop Fat32Fs × Disk :=
  match formatGeometry lbaStart totalSectors with
  | .error stop => (.error stop, disk)
  | .ok fs => (.ok fs, fs.formatSectors totalSectors (padTo 11 volumeLabel) disk)

inductive Call where
  | writeFile (path data : List UInt8)
  | createDir (path : List UInt8)
  | deleteEntry (path : List UInt8)
deriving DecidableEq, Repr

def Call.path : Call → List UInt8
  | .writeFile path _ => path
  | .createDir path => path
  | .deleteEntry path => path

def Fat32Fs.perform (fs : Fat32Fs) (disk : Disk) : Call → Except Stop Unit × Disk
  | .writeFile path data => fs.writeFile disk path data
  | .createDir path =>
    match fs.createDir disk path with
    | (.error stop, disk) => (.error stop, disk)
    | (.ok _, disk) => (.ok (), disk)
  | .deleteEntry path => fs.deleteEntry disk path

def Fat32Fs.step (fs : Fat32Fs) (disk : Disk) (call : Call) : Disk :=
  (fs.perform disk call).2

def Fat32Fs.target (fs : Fat32Fs) (disk : Disk) (path : List UInt8) : Option FatDirEntry :=
  let (parentDir, filename) := splitLast (trimMatches slash path)
  match fs.resolveParent disk parentDir with
  | .error _ => none
  | .ok parentCluster =>
    match fs.findEntryInDir disk parentCluster filename with
    | .ok (some (entry, _)) => some entry
    | _ => none

end AuraOS.Fat32
