import AuraOS.Fat32Capacity
import AuraOS.Fat32Regions

namespace AuraOS.Fat32

open LittleEndian GuardedRuns

/-- The file system with the fields of its BPB that only `format` and `mount` use. -/
structure Volume extends Fat32Fs where
  drive : UInt8
  bytesPerSector : Nat
  reservedSectors : Nat
  totalSectors : Nat
  fsInfoSector : Nat
  volumeId : Nat
  volumeLabel : List UInt8
deriving DecidableEq, Repr

/-- The value that `format` returns. -/
def Fat32Fs.volume (fs : Fat32Fs) (drive : UInt8) (totalSectors : Nat) (volumeLabel : List UInt8) :
    Volume :=
  ⟨fs, drive, sectorSize, reservedSectors, totalSectors, 1, 0x20260909, padTo 11 volumeLabel⟩

def Sector.bytesAt (buf : Sector) (offset count : Nat) : List UInt8 :=
  (List.range count).map fun i => buf (offset + i)

def Sector.leAt (buf : Sector) (offset count : Nat) : Nat :=
  leValue (buf.bytesAt offset count)

def mount (disk : Disk) (drive : UInt8) (lbaStart : Nat) : Except Stop Volume :=
  let bpbSec := disk lbaStart
  if bpbSec 510 ≠ 0x55 ∨ bpbSec 511 ≠ 0xAA then
    fail "Invalid boot sector signature (missing 0x55, 0xAA)"
  else if bpbSec.bytesAt 82 5 ≠ [0x46, 0x41, 0x54, 0x33, 0x32] then
    fail "Not a valid FAT32 filesystem (missing FAT32 signature)"
  else if bpbSec.leAt 11 2 ≠ 512 then
    fail "Unsupported sector size (only 512 bytes supported)"
  else if bpbSec 13 = 0 then
    fail "Invalid sectors per cluster (0)"
  else
    let sectorsPerCluster := (bpbSec 13).toNat
    let reservedSectors := bpbSec.leAt 14 2
    let numFats := (bpbSec 16).toNat
    let totalSectors := bpbSec.leAt 32 4
    let sectorsPerFat := bpbSec.leAt 36 4
    let fatStartLba := add32 lbaStart reservedSectors
    let dataStartLba := add32 fatStartLba (mul32 numFats sectorsPerFat)
    let dataSectors := totalSectors - (dataStartLba - lbaStart)
    .ok
      { lbaStart, sectorsPerCluster, numFats, sectorsPerFat, fatStartLba, dataStartLba
        rootCluster := bpbSec.leAt 44 4
        totalClusters := dataSectors / sectorsPerCluster
        drive, reservedSectors, totalSectors
        bytesPerSector := bpbSec.leAt 11 2
        fsInfoSector := bpbSec.leAt 48 2
        volumeId := bpbSec.leAt 67 4
        volumeLabel := bpbSec.bytesAt 71 11 }

section Boot

variable {parts : List (Nat × List UInt8)} {i offset lbaStart totalSectors : Nat}
  {bytes label : List UInt8} {fs : Fat32Fs} {disk : Disk}

def EndsBefore (p q : Nat × List UInt8) : Prop := p.1 + p.2.length ≤ q.1

instance : Trans EndsBefore EndsBefore EndsBefore where
  trans hpq hqr := (Nat.le_add_right_of_le hpq).trans hqr

theorem foldl_copyAt_of_lt (h : ∀ part ∈ parts, i < part.1) (buf : Sector) :
    parts.foldl (fun buf part => buf.copyAt part.1 part.2) buf i = buf i := by
  induction parts generalizing buf with
  | nil => rfl
  | cons part rest ih =>
    rw [List.foldl_cons, ih fun p hp => h p (.tail _ hp)]
    exact copyAt_outside buf (.inl (h part (.head _)))

theorem bytesAt_foldl (hsorted : parts.Pairwise EndsBefore)
    (h : (offset, bytes) ∈ parts) (buf : Sector) :
    Sector.bytesAt (parts.foldl (fun buf part => buf.copyAt part.1 part.2) buf) offset
      bytes.length = bytes := by
  induction parts generalizing buf with
  | nil => cases h
  | cons part rest ih =>
    obtain ⟨hlater, hrest⟩ := List.pairwise_cons.mp hsorted
    rcases List.mem_cons.mp h with rfl | h
    · refine List.ext_getElem (by simp [Sector.bytesAt]) fun i _ hi => ?_
      have hbefore : ∀ p ∈ rest, offset + i < p.1 := fun p hp =>
        (Nat.add_lt_add_left hi offset).trans_le (hlater p hp)
      simp only [Sector.bytesAt, List.getElem_map, List.getElem_range, List.foldl_cons]
      rw [foldl_copyAt_of_lt hbefore, copyAt_inside buf hi]
    · exact ih hrest h (buf.copyAt part.1 part.2)

theorem mount_bootSector (hgeometry : formatGeometry lbaStart totalSectors = .ok fs)
    (hfits : lbaStart + totalSectors ≤ 2 ^ 28)
    (hboot : disk lbaStart = bootSector fs totalSectors (padTo 11 label)) (drive : UInt8) :
    mount disk drive lbaStart = .ok (fs.volume drive totalSectors label) := by
  obtain ⟨hmin, hend, hfs⟩ := formatGeometry_eq hgeometry
  have hsize := fatSize_le hmin
  have hlabel := length_padTo 11 label
  have hread : ∀ part ∈ [(11, leBytes 2 sectorSize), (13, leBytes 1 fs.sectorsPerCluster),
      (14, leBytes 2 reservedSectors), (16, leBytes 1 fs.numFats), (32, leBytes 4 totalSectors),
      (36, leBytes 4 fs.sectorsPerFat), (44, leBytes 4 fs.rootCluster), (48, leBytes 2 1),
      (67, leBytes 4 0x20260909), (71, padTo 11 label),
      (82, [0x46, 0x41, 0x54, 0x33, 0x32, 0x20, 0x20, 0x20]), (510, [0x55, 0xAA])],
      (disk lbaStart).bytesAt part.1 part.2.length = part.2 := by
    intro part hpart
    rw [hboot, bootSector]
    refine bytesAt_foldl ?_ ?_ zeroSector
    · rw [← List.isChain_iff_pairwise]
      simp [EndsBefore, hlabel]
    · revert part
      simp
  generalize hsector : disk lbaStart = bpbSec at hread
  simp only [List.forall_mem_cons, length_leBytes, hlabel] at hread
  obtain ⟨hbytes, hper, hreserved, hfats, htotal, htable, hroot, hinfo, hid, hname, htype, hsign,
    -⟩ := hread
  have hone : bpbSec 13 = 1 := by
    rw [hfs] at hper
    exact List.cons.inj hper |>.1
  have htwo : bpbSec 16 = 2 := by
    rw [hfs] at hfats
    exact List.cons.inj hfats |>.1
  have hsignature : bpbSec.bytesAt 82 5 = [0x46, 0x41, 0x54, 0x33, 0x32] :=
    congrArg (List.take 5) htype
  obtain ⟨hfirst, hsecond⟩ : bpbSec 510 = 0x55 ∧ bpbSec 511 = 0xAA := by
    simpa [Sector.bytesAt, List.range_succ] using hsign
  have htotalEq : totalSectors % 256 ^ 4 = totalSectors := Nat.mod_eq_of_lt (by omega)
  have hsizeEq : fatSize totalSectors % 256 ^ 4 = fatSize totalSectors :=
    Nat.mod_eq_of_lt (by omega)
  have hclusters : totalSectors - (add32 (add32 lbaStart 32) (mul32 2 (fatSize totalSectors)) -
      lbaStart) = add32 lbaStart totalSectors -
        add32 (add32 lbaStart 32) (mul32 2 (fatSize totalSectors)) := by
    grind
  obtain ⟨start, per, fats, size, root, fat, data, clusters⟩ := fs
  simp only [Fat32Fs.mk.injEq] at hfs
  obtain ⟨rfl, rfl, rfl, rfl, rfl, rfl, rfl, rfl⟩ := hfs
  simp only [mount, hsector, hfirst, hsecond, hsignature, Sector.leAt, hbytes, hreserved, htotal,
    htable, hroot, hinfo, hid, hname, hone, htwo, leValue_leBytes, htotalEq, hsizeEq]
  simp [Fat32Fs.volume, sectorSize, reservedSectors, hclusters]

end Boot

/-- A volume is mounted as it was formatted, also after legal calls. -/
theorem mount_format {disk disk₀ : Disk} {lbaStart totalSectors : Nat} {label : List UInt8}
    {fs : Fat32Fs} (hfits : lbaStart + totalSectors ≤ 2 ^ 28)
    (hformat : format disk lbaStart totalSectors label = (.ok fs, disk₀)) (drive : UInt8)
    (calls : List Call) (hcalls : Guarded fs.step fs.Legal disk₀ calls) :
    mount (calls.foldl fs.step disk₀) drive lbaStart =
      .ok (fs.volume drive totalSectors label) := by
  obtain ⟨hgeometry, rfl⟩ := format_eq hformat
  have hlba : lbaStart < 2 ^ 32 := by omega
  obtain ⟨layout, hstart, -⟩ := layout_of_formatGeometry hgeometry hlba (by omega)
    (totalClusters_le hgeometry hfits)
  have hfirst : fs.sectorAt 0 = lbaStart := by
    rw [Fat32Fs.sectorAt, hstart]
    exact Nat.mod_eq_of_lt hlba
  have hkept := (confined_run layout label disk calls hcalls).reserved 0 (by decide)
  rw [hfirst, (formatSectors_reserved hgeometry hlba (by omega) _ disk).1] at hkept
  exact mount_bootSector hgeometry hfits hkept drive

theorem mount_format_small :
    mount (smallCalls.foldl smallVolume.step smallDisk) 0 0 = .ok (smallVolume.volume 0 1024 []) :=
  mount_format (by decide) format_blankDisk 0 smallCalls smallCalls_legal

/-- The parts of the volume lie where the driver looks for them, and no sum or product of
`mount`, `cluster_to_lba` and `read_fat_entry` exceeds 32 bits. -/
structure Volume.GeometryOk (v : Volume) : Prop where
  copies : 1 ≤ v.numFats
  entries : ∀ c < v.totalClusters, c * 4 / sectorSize < v.sectorsPerFat
  tables : v.fatStartLba + v.numFats * v.sectorsPerFat = v.dataStartLba
  sectors : ∀ c < v.totalClusters, ∀ i < v.sectorsPerCluster,
    v.clusterToLba c + i < v.lbaStart + v.totalSectors
  root : 2 ≤ v.rootCluster ∧ v.rootCluster < v.totalClusters + 2
  mountSums : v.lbaStart + v.reservedSectors < 2 ^ 32 ∧ v.numFats * v.sectorsPerFat < 2 ^ 32 ∧
    v.fatStartLba + v.numFats * v.sectorsPerFat < 2 ^ 32
  clusterSums : ∀ c < v.totalClusters, (c - 2) * v.sectorsPerCluster < 2 ^ 32 ∧
    v.dataStartLba + (c - 2) * v.sectorsPerCluster < 2 ^ 32
  entrySums : ∀ c < v.totalClusters, c * 4 < 2 ^ 32 ∧
    v.fatStartLba + c * 4 / sectorSize < 2 ^ 32

/-- What the fields of a boot sector have to satisfy and `mount` does not check. -/
def Sector.Fits (bpbSec : Sector) (lbaStart : Nat) : Prop :=
  let perCluster := (bpbSec 13).toNat
  let tables := bpbSec.leAt 14 2 + (bpbSec 16).toNat * bpbSec.leAt 36 4
  let clusters := (bpbSec.leAt 32 4 - tables) / perCluster
  1 ≤ (bpbSec 16).toNat ∧ lbaStart + tables + (clusters - 3) * perCluster < 2 ^ 32 ∧
    clusters ≤ 128 * bpbSec.leAt 36 4 ∧ clusters ≤ 2 ^ 30 ∧
    2 ≤ bpbSec.leAt 44 4 ∧ bpbSec.leAt 44 4 < clusters + 2

/-- The accepted volumes with a consistent geometry. -/
theorem mount_geometryOk_iff {disk : Disk} {drive : UInt8} {lbaStart : Nat} {v : Volume}
    (h : mount disk drive lbaStart = .ok v) : v.GeometryOk ↔ (disk lbaStart).Fits lbaStart := by
  simp only [mount] at h
  generalize disk lbaStart = bpbSec at h ⊢
  repeat' split at h
  all_goals cases h
  rename_i _ _ _ hper
  simp only [Sector.Fits]
  generalize bpbSec.leAt 14 2 = reserved
  generalize bpbSec.leAt 32 4 = total
  generalize bpbSec.leAt 36 4 = size
  generalize (bpbSec 13).toNat = per at hper
  generalize (bpbSec 16).toNat = fats
  -- below 32 bits, the sizes that `mount` computes are exact
  have hexact (hsum : lbaStart + (reserved + fats * size) < 2 ^ 32) :
      add32 lbaStart reserved = lbaStart + reserved ∧
      add32 (add32 lbaStart reserved) (mul32 fats size) = lbaStart + (reserved + fats * size) := by
    simp only [add32, mul32]
    omega
  constructor
  · rintro ⟨hcopies, hentries, -, -, ⟨hroot, hlast⟩, ⟨hfat, -, hdata⟩, hclusters, hwords⟩
    simp only at hcopies hentries hroot hlast hfat hdata hclusters hwords
    have hsum : lbaStart + (reserved + fats * size) < 2 ^ 32 := by
      rw [add32, Nat.mod_eq_of_lt hfat] at hdata
      omega
    obtain ⟨-, hstart⟩ := hexact hsum
    rw [hstart, Nat.add_sub_cancel_left] at hentries hlast hclusters hwords
    generalize (total - (reserved + fats * size)) / per = clusters at *
    have hpos : clusters - 1 < clusters := by omega
    have hentry := hentries _ hpos
    have hword := (hwords _ hpos).1
    have hcluster := (hclusters _ hpos).2
    simp only [sectorSize] at hentry
    exact ⟨hcopies, hcluster, by omega, by omega, hroot, hlast⟩
  · rintro ⟨hcopies, hsum, hentries, hwords, hroot, hlast⟩
    obtain ⟨hfat, hstart⟩ := hexact (by omega)
    have hfit : (total - (reserved + fats * size)) / per * per ≤ total - (reserved + fats * size) :=
      Nat.div_mul_le_self _ _
    rw [hstart, hfat, Nat.add_sub_cancel_left]
    generalize (total - (reserved + fats * size)) / per = clusters at *
    have hoffset {c : Nat} (hc : c < clusters) :
        lbaStart + (reserved + fats * size) + (c - 2) * per < 2 ^ 32 :=
      lt_of_le_of_lt (Nat.add_le_add_left (Nat.mul_le_mul_right per (by omega)) _) hsum
    have hend {c : Nat} (hc : c < clusters) : (c - 2) * per + per ≤ clusters * per := by
      rw [← Nat.succ_mul]
      exact Nat.mul_le_mul_right per (by omega)
    have hone : size ≤ fats * size := Nat.le_mul_of_pos_left size hcopies
    refine ⟨hcopies, fun c hc => ?_, Nat.add_assoc _ _ _, fun c hc i hi => ?_, ⟨hroot, hlast⟩,
      ?_, fun c hc => ?_, fun c hc => ?_⟩
    · simp only [sectorSize] at hc ⊢
      omega
    · have := hoffset hc
      have := hend hc
      simp only [Fat32Fs.clusterToLba, add32, mul32] at hi ⊢
      omega
    · simp only
      omega
    · have := hoffset hc
      simp only
      omega
    · simp only [sectorSize] at hc ⊢
      omega

def tablelessDisk : Disk :=
  ⟨fun _ => sectorWith [(11, [0, 2]), (13, [1]), (82, [0x46, 0x41, 0x54, 0x33, 0x32]),
    (510, [0x55, 0xAA])], []⟩

theorem mount_tablelessDisk : ∃ v, mount tablelessDisk 0 0 = .ok v ∧ v.numFats = 0 :=
  ⟨_, rfl, rfl⟩

theorem mount_tableless : ∃ v, mount tablelessDisk 0 0 = .ok v ∧ ¬ v.GeometryOk := by
  obtain ⟨v, hmount, hnone⟩ := mount_tablelessDisk
  refine ⟨v, hmount, fun h => ?_⟩
  have hcopies := h.copies
  omega

theorem mount_geometryOk_iff_tableless :
    ∃ v, mount tablelessDisk 0 0 = .ok v ∧ (v.GeometryOk ↔ (tablelessDisk 0).Fits 0) := by
  obtain ⟨v, hmount, -⟩ := mount_tablelessDisk
  exact ⟨v, hmount, mount_geometryOk_iff hmount⟩

end AuraOS.Fat32
