import AuraOS.Fat32Safety

namespace AuraOS.Fat32

open LittleEndian Function

variable {lba other lbaStart totalSectors low : Nat} {fs : Fat32Fs} {disk : Disk}

/-- The clusters that successive calls of `allocate_cluster(None)` return, at most so many,
and the disk afterwards. -/
def Fat32Fs.allocateAll (fs : Fat32Fs) : Nat → Disk → List Nat × Disk
  | 0, disk => ([], disk)
  | calls + 1, disk =>
    match fs.allocateCluster disk none with
    | (.error _, disk) => ([], disk)
    | (.ok c, disk) =>
      let (clusters, disk) := fs.allocateAll calls disk
      (c :: clusters, disk)

section Sectors

theorem foldl_sectors {α : Type} {write : Disk → α → Disk} {xs : List α}
    (h : ∀ disk, ∀ x ∈ xs, (write disk x).sectors lba = disk.sectors lba) (disk : Disk) :
    (xs.foldl write disk).sectors lba = disk.sectors lba := by
  induction xs generalizing disk with
  | nil => rfl
  | cons x rest ih =>
    rw [List.foldl_cons, ih fun disk y hy => h disk y (.tail x hy)]
    exact h disk x (.head _)

theorem writeSector_of_ne (disk : Disk) (region : Region) (buf : Sector) (h : other ≠ lba) :
    (disk.writeSector region lba buf).sectors other = disk.sectors other :=
  update_of_ne h _ _

theorem formatSectors_of_ne (hone : fs.sectorsPerCluster = 1) (totalSectors : Nat)
    (label : List UInt8) (disk : Disk)
    (hfirst : lba ≠ fs.fatStartLba ∧ lba ≠ add32 fs.fatStartLba fs.sectorsPerFat)
    (htable : ∀ s, s < fs.sectorsPerFat → lba ≠ add32 fs.fatStartLba s ∧
      lba ≠ add32 (add32 fs.fatStartLba fs.sectorsPerFat) s) (hdata : lba ≠ fs.dataStartLba) :
    (fs.formatSectors totalSectors label disk).sectors lba =
      ((disk.writeSector .reserved fs.lbaStart (bootSector fs totalSectors label)).writeSector
        .reserved (add32 fs.lbaStart 1) (fsInfoSector fs.totalClusters)).sectors lba := by
  have hempty : List.range' 1 (fs.sectorsPerCluster - 1) = [] := by
    rw [hone]
    rfl
  simp only [Fat32Fs.formatSectors, hempty, List.foldl_nil]
  rw [writeSector_of_ne _ _ _ hdata, foldl_sectors, writeSector_of_ne _ _ _ hfirst.2,
    writeSector_of_ne _ _ _ hfirst.1]
  intro disk s hs
  have hs' : s < fs.sectorsPerFat := by
    have := List.mem_range'_1.mp hs
    omega
  rw [writeSector_of_ne _ _ _ (htable s hs').2, writeSector_of_ne _ _ _ (htable s hs').1]

theorem formatSectors_reserved (h : formatGeometry lbaStart totalSectors = .ok fs)
    (hlba : lbaStart < 2 ^ 32) (htotal : totalSectors < 2 ^ 32) (label : List UInt8) (disk : Disk) :
    (fs.formatSectors totalSectors label disk).sectors lbaStart = bootSector fs totalSectors label ∧
      (fs.formatSectors totalSectors label disk).sectors (add32 lbaStart 1) =
        fsInfoSector fs.totalClusters := by
  obtain ⟨hmin, _, hfs⟩ := formatGeometry_eq h
  have hstart : fs.lbaStart = lbaStart := by rw [hfs]
  have hkept (i : Nat) (hi : i < 2) :
      (fs.formatSectors totalSectors label disk).sectors ((lbaStart + i) % 2 ^ 32) =
        ((disk.writeSector .reserved fs.lbaStart (bootSector fs totalSectors label)).writeSector
          .reserved (add32 fs.lbaStart 1) (fsInfoSector fs.totalClusters)).sectors
            ((lbaStart + i) % 2 ^ 32) := by
    refine formatSectors_of_ne (by rw [hfs]) totalSectors label disk ?_ (fun s hs => ?_) ?_
    all_goals
      grind
  have hzero := hkept 0 Nat.zero_lt_two
  have hone := hkept 1 Nat.one_lt_two
  rw [Nat.add_zero, Nat.mod_eq_of_lt hlba, hstart] at hzero
  rw [hstart] at hone
  refine ⟨hzero.trans ?_, hone.trans (update_self _ _ _)⟩
  have hne : lbaStart ≠ add32 lbaStart 1 := by
    grind
  exact (writeSector_of_ne _ _ _ hne).trans (update_self _ _ _)

end Sectors

section Search

variable {fs : Fat32Fs}

theorem entryOffset_eq (cluster : Nat) : mul32 cluster 4 % sectorSize = 4 * (cluster % 128) := by
  simp only [mul32, sectorSize]
  omega

theorem readFatEntry_writeFatCopy (disk : Disk) (cluster value copy other : Nat) :
    fs.readFatEntry (fs.writeFatCopy cluster value disk copy) other = value % 2 ^ 28 ∨
      fs.readFatEntry (fs.writeFatCopy cluster value disk copy) other =
        fs.readFatEntry disk other ∧ (copy = 0 → other ≠ cluster) := by
  simp only [Fat32Fs.readFatEntry, Fat32Fs.writeFatCopy, entryOffset_eq, Disk.writeSector]
  rw [← setEntry]
  by_cases hsector : add32 fs.fatStartLba (mul32 other 4 / sectorSize) =
      add32 (add32 fs.fatStartLba (mul32 copy fs.sectorsPerFat)) (mul32 cluster 4 / sectorSize)
  · rw [hsector, update_self]
    by_cases hplace : other % 128 = cluster % 128
    · rw [hplace, u32At_setEntry, Nat.mul_add_mod, Nat.mod_mod]
      exact .inl rfl
    · rw [u32At_setEntry_of_ne _ _ hplace]
      refine .inr ⟨rfl, fun _ heq => hplace (by rw [heq])⟩
  · rw [update_of_ne hsector]
    refine .inr ⟨rfl, ?_⟩
    rintro rfl rfl
    refine hsector ?_
    grind

theorem readFatEntry_writeFatEntry (hfats : 0 < fs.numFats) {cluster value : Nat} (P : Nat → Prop)
    (hvalue : P (value % 2 ^ 28)) (h : other = cluster ∨ P (fs.readFatEntry disk other)) :
    P (fs.readFatEntry (fs.writeFatEntry disk cluster value) other) := by
  -- After the first copy the entry has the property, and the further copies keep it.
  have hcopies (n : Nat) : 0 < n →
      P (fs.readFatEntry ((List.range n).foldl (fs.writeFatCopy cluster value) disk) other) := by
    induction n with
    | zero => exact nofun
    | succ n ih =>
      intro _
      rw [List.range_succ, List.foldl_append, List.foldl_cons, List.foldl_nil]
      rcases readFatEntry_writeFatCopy _ cluster value n other with heq | ⟨heq, hne⟩
      · exact heq ▸ hvalue
      · rw [heq]
        rcases Nat.eq_zero_or_pos n with rfl | hpos
        · exact h.resolve_left (hne rfl)
        · exact ih hpos
  exact hcopies fs.numFats hfats

structure Formatted (fs : Fat32Fs) : Prop where
  sectorsPerCluster : fs.sectorsPerCluster = 1
  numFats : fs.numFats = 2
  dataStartLba : fs.dataStartLba = add32 fs.fatStartLba (mul32 2 fs.sectorsPerFat)
  copies : 16 ≤ fs.sectorsPerFat
  fits : 2 * fs.sectorsPerFat + fs.totalClusters < 2 ^ 32
  root : 2 < fs.totalClusters

theorem formatted_of_formatGeometry (h : formatGeometry lbaStart totalSectors = .ok fs)
    (htotal : totalSectors < 2 ^ 32) : Formatted fs := by
  obtain ⟨hmin, hend, hfs⟩ := formatGeometry_eq h
  have hsize := fatSize_le hmin
  have hper : fs.sectorsPerFat = fatSize totalSectors := by rw [hfs]
  have hdata : fs.dataStartLba =
      add32 (add32 lbaStart reservedSectors) (mul32 2 (fatSize totalSectors)) := by rw [hfs]
  have hcount : fs.totalClusters = add32 lbaStart totalSectors - fs.dataStartLba :=
    congrArg Fat32Fs.totalClusters hfs
  rw [hdata] at hend hcount
  have hleast : 16 ≤ fatSize totalSectors := Nat.le_max_right _ _
  simp only [add32, mul32, reservedSectors] at hend hcount hsize
  refine ⟨by rw [hfs], by rw [hfs], by rw [hfs], by omega, ?_, ?_⟩ <;> rw [hcount] <;> omega

/-- Taking a cluster leaves the entries up to it taken: its sector holds no entry of them. -/
theorem allocateCluster_next (formatted : Formatted fs)
    (h : ∀ e, 3 ≤ e → e < low → fs.readFatEntry disk e ≠ fatFree) :
    (∃ stop, fs.allocateCluster disk none = (.error stop, disk)) ∨
      ∃ c disk', fs.allocateCluster disk none = (.ok c, disk') ∧ low ≤ c ∧ c < fs.totalClusters ∧
        3 ≤ c ∧ ∀ e, 3 ≤ e → e < c + 1 → fs.readFatEntry disk' e ≠ fatFree := by
  rw [Fat32Fs.allocateCluster]
  cases hfind : (List.range' 3 (fs.totalClusters - 3)).find?
      (fs.readFatEntry disk · == fatFree) with
  | none => exact .inl ⟨_, rfl⟩
  | some c =>
    have hmem := List.mem_range'_1.mp (List.mem_of_find?_eq_some hfind)
    have hfree := List.find?_some hfind
    rw [beq_iff_eq] at hfree
    have hbefore (e : Nat) (hlow : 3 ≤ e) (hlt : e < c) : fs.readFatEntry disk e ≠ fatFree := by
      have := List.find?_range'_eq_some.mp hfind
      simpa using this.2.2 e hlow hlt
    refine .inr ⟨c, _, rfl, ?_, by omega, hmem.1, fun e hlow hlt => ?_⟩
    · exact Nat.le_of_not_lt fun hlt => h c hmem.1 hlt hfree
    · have hsector : add32 fs.fatStartLba (mul32 e 4 / sectorSize) ≠
          add32 (fs.clusterToLba c) 0 := by
        have := formatted.fits
        rw [Fat32Fs.clusterToLba, formatted.dataStartLba, formatted.sectorsPerCluster]
        grind
      have hkept : fs.readFatEntry (fs.writeFatEntry disk c fatEoc) e ≠ fatFree := by
        refine readFatEntry_writeFatEntry (by rw [formatted.numFats]; exact Nat.zero_lt_two)
          (· ≠ fatFree) (by decide) ?_
        rcases Nat.lt_or_ge e c with hlt | hge
        · exact .inr (hbefore e hlow hlt)
        · exact .inl (by omega)
      rw [Fat32Fs.clusterSectors, formatted.sectorsPerCluster]
      simp only [List.range_one, List.map_cons, List.map_nil, List.foldl_cons, List.foldl_nil]
      rw [Fat32Fs.readFatEntry] at hkept ⊢
      rw [writeSector_of_ne _ _ _ hsector]
      exact hkept

theorem allocateAll_spec (formatted : Formatted fs) {calls : Nat} (hlow : 3 ≤ low)
    (h : ∀ e, 3 ≤ e → e < low → fs.readFatEntry disk e ≠ fatFree)
    (hcalls : fs.totalClusters - low < calls) :
    (fs.allocateAll calls disk).1.length ≤ fs.totalClusters - low ∧
      ∃ stop, (fs.allocateCluster (fs.allocateAll calls disk).2 none).1 = .error stop := by
  induction calls generalizing disk low with
  | zero => exact absurd hcalls (Nat.not_lt_zero _)
  | succ calls ih =>
    rw [Fat32Fs.allocateAll]
    rcases allocateCluster_next formatted h with ⟨stop, halloc⟩ |
      ⟨c, disk', halloc, hle, hlt, _, hnext⟩
    · simp only [halloc]
      exact ⟨Nat.zero_le _, stop, rfl⟩
    · simp only [halloc, List.length_cons]
      obtain ⟨hlength, hfull⟩ := ih (by omega) hnext (by omega)
      exact ⟨by omega, hfull⟩

end Search

def recordedFree (disk : Disk) (lbaStart : Nat) : Nat := (disk (add32 lbaStart 1)).u32At 488

/-- On every volume, fewer clusters can be taken than it records as free. -/
theorem formatted_space_unusable {disk disk₀ : Disk} {lbaStart totalSectors : Nat}
    {label : List UInt8} {fs : Fat32Fs} (hlba : lbaStart < 2 ^ 32) (htotal : totalSectors < 2 ^ 32)
    (hformat : format disk lbaStart totalSectors label = (.ok fs, disk₀)) :
    recordedFree disk₀ lbaStart = fs.totalClusters - 1 ∧
      (∃ stop, (fs.allocateCluster (fs.allocateAll fs.totalClusters disk₀).2 none).1 =
        .error stop) ∧
      (fs.allocateAll fs.totalClusters disk₀).1.length < recordedFree disk₀ lbaStart := by
  obtain ⟨hgeometry, rfl⟩ := format_eq hformat
  have formatted := formatted_of_formatGeometry hgeometry htotal
  have hroot := formatted.root
  have hcount : fs.totalClusters - 1 < 2 ^ 32 := by
    have := formatted.fits
    omega
  have hrecorded : recordedFree (fs.formatSectors totalSectors (padTo 11 label) disk) lbaStart =
      fs.totalClusters - 1 := by
    rw [recordedFree, (formatSectors_reserved hgeometry hlba htotal _ disk).2]
    exact (leValue_leBytes 4 _).trans (Nat.mod_eq_of_lt hcount)
  obtain ⟨hlength, hfull⟩ := allocateAll_spec formatted (Nat.le_refl 3)
    (fun e hlow hlt => absurd hlt (Nat.not_lt.mpr hlow)) (by omega : _ < fs.totalClusters)
  exact ⟨hrecorded, hfull, by rw [hrecorded]; omega⟩

theorem formatted_space_unusable_small :
    recordedFree smallDisk 0 = 959 ∧
      (∃ stop, (smallVolume.allocateCluster (smallVolume.allocateAll 960 smallDisk).2 none).1 =
        .error stop) ∧
      (smallVolume.allocateAll 960 smallDisk).1.length < recordedFree smallDisk 0 :=
  formatted_space_unusable (by decide) (by decide) format_blankDisk

/-- The smallest volume records 959 free clusters. -/
theorem small_space_lost :
    (∃ stop, (smallVolume.allocateCluster (smallVolume.allocateAll 960 smallDisk).2 none).1 =
      .error stop) ∧
      (smallVolume.allocateAll 960 smallDisk).1.length ≠ recordedFree smallDisk 0 := by
  have formatted : Formatted smallVolume := by constructor <;> decide
  have hrecorded : recordedFree smallDisk 0 = 959 := by decide +kernel
  obtain ⟨hlength, hfull⟩ := allocateAll_spec formatted (Nat.le_refl 3)
    (fun e hlow hlt => absurd hlt (Nat.not_lt.mpr hlow)) (by decide : 960 - 3 < 960)
  refine ⟨hfull, fun heq => ?_⟩
  rw [heq, hrecorded] at hlength
  exact absurd hlength (by decide)

end AuraOS.Fat32
