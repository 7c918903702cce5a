import AuraOS.Fat32Format

namespace AuraOS.Fat32

open LittleEndian Function

variable {offset i j copy copy' i' cluster : Nat} {bytes : List UInt8}

def Fat32Fs.entryCount (fs : Fat32Fs) : Nat := 128 * fs.sectorsPerFat

def Fat32Fs.sectorAt (fs : Fat32Fs) (offset : Nat) : Nat := (fs.lbaStart + offset) % 2 ^ 32

def Fat32Fs.tableOffset (fs : Fat32Fs) (copy i : Nat) : Nat :=
  reservedSectors + copy * fs.sectorsPerFat + i

def Fat32Fs.dataOffset (fs : Fat32Fs) (cluster : Nat) : Nat :=
  fs.tableOffset 2 0 + (cluster - 2)

attribute [grind =] Fat32Fs.entryCount Fat32Fs.sectorAt Fat32Fs.tableOffset Fat32Fs.dataOffset

/-- The parts of a volume as `format` lays them out, with fewer clusters than there are
numbers for them. -/
structure Layout (fs : Fat32Fs) : Prop where
  sectorsPerCluster : fs.sectorsPerCluster = 1
  numFats : fs.numFats = 2
  rootCluster : fs.rootCluster = 2
  fatStartLba : fs.fatStartLba = fs.sectorAt (fs.tableOffset 0 0)
  dataStartLba : fs.dataStartLba = fs.sectorAt (fs.dataOffset 2)
  lbaStart : fs.lbaStart < 2 ^ 32
  copies : 16 ≤ fs.sectorsPerFat
  fits : fs.dataOffset (fs.totalClusters + 2) ≤ 2 ^ 32
  root : 2 < fs.totalClusters
  clusters : fs.totalClusters ≤ fatBad
  covered : fs.totalClusters < fs.entryCount
  entries : fs.entryCount ≤ 2 ^ 30

structure TableLayout (fs : Fat32Fs) : Prop where
  numFats : fs.numFats = 2
  fatStartLba : fs.fatStartLba = fs.sectorAt (fs.tableOffset 0 0)
  fits : fs.tableOffset 2 0 ≤ 2 ^ 32
  entries : fs.entryCount ≤ 2 ^ 30

theorem Layout.table {fs : Fat32Fs} (layout : Layout fs) : TableLayout fs := by
  have hfits := layout.fits
  simp only [Fat32Fs.dataOffset] at hfits
  exact ⟨layout.numFats, layout.fatStartLba, by omega, layout.entries⟩

section Geometry

variable {fs : Fat32Fs} {lbaStart totalSectors : Nat}

def fatSize (totalSectors : Nat) : Nat :=
  max (add32 (mul32 (add32 (totalSectors - reservedSectors) 2) 4) 511 / 512) 16

attribute [grind =] fatSize

variable (h : formatGeometry lbaStart totalSectors = .ok fs)
include h

theorem formatGeometry_eq :
    1024 ≤ totalSectors ∧ fs.dataStartLba < add32 lbaStart totalSectors ∧
      fs = ⟨lbaStart, 1, 2, fatSize totalSectors, 2, add32 lbaStart reservedSectors,
        add32 (add32 lbaStart reservedSectors) (mul32 2 (fatSize totalSectors)),
        add32 lbaStart totalSectors - fs.dataStartLba⟩ := by
  simp only [formatGeometry, Nat.div_one] at h
  split at h
  · cases h
  · rename_i hmin
    split at h
    · cases h
    · rename_i hend
      cases h
      exact ⟨Nat.le_of_not_lt hmin, Nat.lt_of_not_le hend, rfl⟩

omit h in
theorem fatSize_le (h : 1024 ≤ totalSectors) :
    reservedSectors + 2 * fatSize totalSectors + 2 < totalSectors := by
  grind

theorem table_of_formatGeometry (htotal : totalSectors < 2 ^ 32) : TableLayout fs := by
  obtain ⟨hmin, _, hfs⟩ := formatGeometry_eq h
  have hsize := fatSize_le hmin
  rw [hfs]
  refine ⟨rfl, ?_, ?_, ?_⟩
  · simp only [Fat32Fs.sectorAt, Fat32Fs.tableOffset, add32, Nat.zero_mul, Nat.add_zero]
  · grind
  · grind

theorem layout_of_formatGeometry (hlba : lbaStart < 2 ^ 32) (htotal : totalSectors < 2 ^ 32)
    (hclusters : fs.totalClusters ≤ fatBad) :
    Layout fs ∧ fs.lbaStart = lbaStart ∧ fs.dataOffset (fs.totalClusters + 2) = totalSectors := by
  have table := table_of_formatGeometry h htotal
  obtain ⟨hmin, hend, hfs⟩ := formatGeometry_eq h
  have hsize := fatSize_le hmin
  have hcount : fs.totalClusters = totalSectors - reservedSectors - 2 * fatSize totalSectors := by
    rw [hfs] at hend ⊢
    grind
  have hper : fs.sectorsPerFat = fatSize totalSectors := by rw [hfs]
  -- With so few clusters, the number of bytes in the table does not wrap around.
  generalize hsizeEq : fatSize totalSectors = size at *
  have hsizeMin : 16 ≤ size := hsizeEq ▸ Nat.le_max_right _ _
  have hoffset : fs.dataOffset (fs.totalClusters + 2) = totalSectors := by
    grind
  have hstart : fs.lbaStart = lbaStart := by rw [hfs]
  have hdata : fs.dataStartLba = add32 (add32 lbaStart reservedSectors) (mul32 2 size) := by
    rw [hfs]
  refine ⟨⟨by rw [hfs], table.numFats, by rw [hfs], table.fatStartLba, ?_, by omega, by omega,
    by omega, ?_, hclusters, ?_, table.entries⟩, hstart, hoffset⟩
  · rw [hdata]
    simp only [Fat32Fs.sectorAt, Fat32Fs.dataOffset, Fat32Fs.tableOffset, hstart, hper, add32,
      mul32, reservedSectors]
    omega
  · grind
  · grind

end Geometry

section Bytes

theorem copyAt_outside (buf : Sector) (h : i < offset ∨ offset + bytes.length ≤ i) :
    buf.copyAt offset bytes i = buf i := by
  rw [Sector.copyAt]
  split
  · rfl
  · exact List.getD_eq_default _ _ (by omega)

theorem copyAt_inside (buf : Sector) (h : i < bytes.length) :
    buf.copyAt offset bytes (offset + i) = bytes[i] := by
  rw [Sector.copyAt, if_neg (by omega), Nat.add_sub_cancel_left]
  exact List.getD_eq_getElem _ _ h

def setEntry (buf : Sector) (j value : Nat) : Sector :=
  buf.copyAt (4 * j) (fatEntryBytes value (buf (4 * j + 3)))

theorem topByte_eq (high old : UInt8) :
    ((high &&& 0x0F) ||| (old &&& 0xF0)).toNat = 16 * (old.toNat / 16) + high.toNat % 16 := by
  have hlow : high.toNat &&& 15 = high.toNat % 16 := Nat.and_two_pow_sub_one_eq_mod _ 4
  have hhigh : ∀ n < 256, n &&& 240 = 2 ^ 4 * (n / 16) := by decide +kernel
  change (high.toNat &&& 15) ||| (old.toNat &&& 240) = _
  rw [hlow, hhigh _ old.toNat_lt, Nat.or_comm, ← Nat.two_pow_add_eq_or_of_lt]
  omega

theorem leValue_fatEntryBytes (value : Nat) (old : UInt8) :
    leValue (fatEntryBytes value old) = 2 ^ 28 * (old.toNat / 16) + value % 2 ^ 28 := by
  have htop := topByte_eq (UInt8.ofNat (value / 2 ^ 24)) old
  simp only [fatEntryBytes, leBytes, List.cons_append, List.nil_append, leValue]
  simp only [UInt8.toNat_ofNat'] at htop ⊢
  omega

theorem u32At_setEntry (buf : Sector) (j value : Nat) :
    (setEntry buf j value).u32At (4 * j) =
      2 ^ 28 * (buf.u32At (4 * j) / 2 ^ 28) + value % 2 ^ 28 := by
  have hbyte (i : Nat) (hi : i < 4) :
      setEntry buf j value (4 * j + i) = (fatEntryBytes value (buf (4 * j + 3)))[i] :=
    copyAt_inside buf (by simpa [fatEntryBytes] using hi)
  have hword : (setEntry buf j value).u32At (4 * j) =
      leValue (fatEntryBytes value (buf (4 * j + 3))) := by
    rw [Sector.u32At, hbyte 1 (by omega), hbyte 2 (by omega), hbyte 3 (by omega),
      ← Nat.add_zero (4 * j), hbyte 0 (by omega)]
    rfl
  have hsmall := (buf (4 * j)).toNat_lt
  have hsmall₁ := (buf (4 * j + 1)).toNat_lt
  have hsmall₂ := (buf (4 * j + 2)).toNat_lt
  rw [hword, leValue_fatEntryBytes]
  simp only [Sector.u32At, leValue]
  omega

theorem u32At_setEntry_of_ne (buf : Sector) {k : Nat} (value : Nat) (h : k ≠ j) :
    (setEntry buf j value).u32At (4 * k) = buf.u32At (4 * k) := by
  have hbyte (i : Nat) (hi : i < 4) : setEntry buf j value (4 * k + i) = buf (4 * k + i) := by
    refine copyAt_outside buf ?_
    simp only [fatEntryBytes, List.length_append, length_leBytes, List.length_singleton]
    omega
  rw [Sector.u32At, hbyte 1 (by omega), hbyte 2 (by omega), hbyte 3 (by omega),
    ← Nat.add_zero (4 * k), hbyte 0 (by omega)]
  rfl

end Bytes

section Sectors

variable {fs : Fat32Fs} (layout : Layout fs)
include layout

omit layout in
theorem sectorAt_inj {a b : Nat} (ha : a < 2 ^ 32) (hb : b < 2 ^ 32)
    (h : fs.sectorAt a = fs.sectorAt b) : a = b := by
  grind

omit layout in
theorem tableOffset_lt (hcopy : copy < 2) (hi : i < fs.sectorsPerFat) :
    fs.tableOffset copy i < fs.tableOffset 2 0 := by
  simp only [Fat32Fs.tableOffset]
  interval_cases copy <;> omega

omit layout in
theorem tableOffset_inj (hcopy : copy < 2) (hcopy' : copy' < 2) (hi : i < fs.sectorsPerFat)
    (hi' : i' < fs.sectorsPerFat) (h : fs.tableOffset copy i = fs.tableOffset copy' i') :
    copy = copy' ∧ i = i' := by
  simp only [Fat32Fs.tableOffset] at h
  interval_cases copy <;> interval_cases copy' <;> omega

def Fat32Fs.Valid (fs : Fat32Fs) (cluster : Nat) : Prop :=
  2 ≤ cluster ∧ cluster < fs.totalClusters

theorem dataOffset_lt (h : fs.Valid cluster) : fs.dataOffset cluster < 2 ^ 32 := by
  have := layout.fits
  simp only [Fat32Fs.Valid, Fat32Fs.dataOffset] at *
  omega

theorem clusterToLba_eq (h : fs.Valid cluster) :
    fs.clusterToLba cluster = fs.sectorAt (fs.dataOffset cluster) := by
  have hlt := dataOffset_lt layout h
  rw [Fat32Fs.clusterToLba, layout.dataStartLba, layout.sectorsPerCluster]
  grind

theorem clusterSectors_eq (h : fs.Valid cluster) :
    fs.clusterSectors cluster = [fs.clusterToLba cluster] := by
  have hsum : add32 (fs.clusterToLba cluster) 0 = fs.clusterToLba cluster := by
    rw [clusterToLba_eq layout h]
    grind
  rw [Fat32Fs.clusterSectors, layout.sectorsPerCluster]
  simpa using hsum

theorem clusterToLba_inj {c c' : Nat} (hc : fs.Valid c) (hc' : fs.Valid c')
    (h : fs.clusterToLba c = fs.clusterToLba c') : c = c' := by
  rw [clusterToLba_eq layout hc, clusterToLba_eq layout hc'] at h
  have hoffset := sectorAt_inj (dataOffset_lt layout hc) (dataOffset_lt layout hc') h
  simp only [Fat32Fs.Valid, Fat32Fs.dataOffset] at *
  omega

theorem clusterToLba_ne (h : fs.Valid cluster) (hcopy : copy < 2) (hi : i < fs.sectorsPerFat) :
    fs.clusterToLba cluster ≠ fs.sectorAt (fs.tableOffset copy i) := by
  intro heq
  have hoffset := tableOffset_lt hcopy hi
  have hbound := layout.table.fits
  rw [clusterToLba_eq layout h] at heq
  have hsame := sectorAt_inj (dataOffset_lt layout h) (by omega) heq
  grind

end Sectors

def Fat32Fs.entryWord (fs : Fat32Fs) (disk : Disk) (copy cluster : Nat) : Nat :=
  (disk (fs.sectorAt (fs.tableOffset copy (cluster / 128)))).u32At (4 * (cluster % 128))

def Fat32Fs.OutsideTable (fs : Fat32Fs) (lba : Nat) : Prop :=
  ∀ copy i, copy < fs.numFats → i < fs.sectorsPerFat → lba ≠ fs.sectorAt (fs.tableOffset copy i)

section Table

variable {fs : Fat32Fs} (table : TableLayout fs)

theorem entrySector_lt (h : cluster < fs.entryCount) : cluster / 128 < fs.sectorsPerFat := by
  grind

include table

theorem fatOffset_eq (h : cluster < fs.entryCount) :
    mul32 cluster 4 / sectorSize = cluster / 128 ∧
      mul32 cluster 4 % sectorSize = 4 * (cluster % 128) := by
  have := table.entries
  grind

theorem readFatEntry_eq (disk : Disk) (h : cluster < fs.entryCount) :
    fs.readFatEntry disk cluster = fs.entryWord disk 0 cluster % 2 ^ 28 := by
  have hlba : add32 (fs.sectorAt (fs.tableOffset 0 0)) (cluster / 128) =
      fs.sectorAt (fs.tableOffset 0 (cluster / 128)) := by
    grind
  obtain ⟨hsector, hbyte⟩ := fatOffset_eq table h
  simp only [Fat32Fs.readFatEntry, hsector, hbyte, table.fatStartLba, hlba, Fat32Fs.entryWord]

theorem writeFatCopy_eq (disk : Disk) (value : Nat) (h : cluster < fs.entryCount) :
    fs.writeFatCopy cluster value disk copy =
      disk.writeSector .table (fs.sectorAt (fs.tableOffset copy (cluster / 128)))
        (setEntry (disk (fs.sectorAt (fs.tableOffset copy (cluster / 128)))) (cluster % 128)
          value) := by
  have hlba : add32 (add32 (fs.sectorAt (fs.tableOffset 0 0)) (mul32 copy fs.sectorsPerFat))
      (cluster / 128) = fs.sectorAt (fs.tableOffset copy (cluster / 128)) := by
    grind
  obtain ⟨hsector, hbyte⟩ := fatOffset_eq table h
  simp only [Fat32Fs.writeFatCopy, hsector, hbyte, table.fatStartLba, hlba, setEntry]

theorem tableSector_inj (hcopy : copy < 2) (hcopy' : copy' < 2) (hi : i < fs.sectorsPerFat)
    (hi' : i' < fs.sectorsPerFat)
    (h : fs.sectorAt (fs.tableOffset copy i) = fs.sectorAt (fs.tableOffset copy' i')) :
    copy = copy' ∧ i = i' := by
  have hfirst := tableOffset_lt hcopy hi
  have hsecond := tableOffset_lt hcopy' hi'
  have hbound := table.fits
  exact tableOffset_inj hcopy hcopy' hi hi' (sectorAt_inj (by omega) (by omega) h)

theorem table_copies_ne (hi : i < fs.sectorsPerFat) (hj : j < fs.sectorsPerFat) :
    fs.sectorAt (fs.tableOffset 0 i) ≠ fs.sectorAt (fs.tableOffset 1 j) := fun heq =>
  absurd (tableSector_inj table Nat.zero_lt_two Nat.one_lt_two hi hj heq).1 Nat.zero_ne_one

theorem writeFatEntry_eq (disk : Disk) (value : Nat) (h : cluster < fs.entryCount) :
    let first := fs.sectorAt (fs.tableOffset 0 (cluster / 128))
    let second := fs.sectorAt (fs.tableOffset 1 (cluster / 128))
    fs.writeFatEntry disk cluster value =
      (disk.writeSector .table first (setEntry (disk first) (cluster % 128) value)).writeSector
        .table second (setEntry (disk second) (cluster % 128) value) := by
  have hi := entrySector_lt h
  have hsecond : ∀ buf : Sector,
      (disk.writeSector .table (fs.sectorAt (fs.tableOffset 0 (cluster / 128))) buf).sectors
        (fs.sectorAt (fs.tableOffset 1 (cluster / 128))) =
      disk (fs.sectorAt (fs.tableOffset 1 (cluster / 128))) := fun buf =>
    update_of_ne (table_copies_ne table hi hi).symm _ _
  rw [Fat32Fs.writeFatEntry, table.numFats]
  simp only [List.range_succ, List.range_zero, List.nil_append, List.cons_append,
    List.foldl_cons, List.foldl_nil]
  rw [writeFatCopy_eq table disk value h, writeFatCopy_eq table _ value h, hsecond]

theorem writeFatEntry_of_ne (disk : Disk) (value : Nat) (h : cluster < fs.entryCount) {lba : Nat}
    (hlba : ∀ copy, copy < 2 → lba ≠ fs.sectorAt (fs.tableOffset copy (cluster / 128))) :
    (fs.writeFatEntry disk cluster value).sectors lba = disk lba := by
  rw [writeFatEntry_eq table disk value h]
  simp only [Disk.writeSector]
  rw [update_of_ne (hlba 1 Nat.one_lt_two), update_of_ne (hlba 0 Nat.zero_lt_two)]

theorem writeFatEntry_outside (disk : Disk) (value : Nat) (h : cluster < fs.entryCount) {lba : Nat}
    (hlba : fs.OutsideTable lba) : (fs.writeFatEntry disk cluster value).sectors lba = disk lba :=
  writeFatEntry_of_ne table disk value h fun copy hcopy =>
    hlba copy _ (table.numFats ▸ hcopy) (entrySector_lt h)

theorem writeFatEntry_table (disk : Disk) (value : Nat) (h : cluster < fs.entryCount)
    (hcopy : copy < 2) (hi : i < fs.sectorsPerFat) :
    (fs.writeFatEntry disk cluster value).sectors (fs.sectorAt (fs.tableOffset copy i)) =
      if i = cluster / 128 then
        setEntry (disk (fs.sectorAt (fs.tableOffset copy i))) (cluster % 128) value
      else disk (fs.sectorAt (fs.tableOffset copy i)) := by
  have hsector := entrySector_lt h
  split
  · subst i
    rw [writeFatEntry_eq table disk value h]
    simp only [Disk.writeSector]
    interval_cases copy
    · rw [update_of_ne (table_copies_ne table hsector hsector), update_self]
    · rw [update_self]
  · rename_i hne
    exact writeFatEntry_of_ne table disk value h fun copy' hcopy' heq =>
      hne (tableSector_inj table hcopy hcopy' hi hsector heq).2

theorem entryWord_writeFatEntry (disk : Disk) (value : Nat) (h : cluster < fs.entryCount)
    (hcopy : copy < 2) {c : Nat} (hc : c < fs.entryCount) :
    fs.entryWord (fs.writeFatEntry disk cluster value) copy c =
      if c = cluster then 2 ^ 28 * (fs.entryWord disk copy c / 2 ^ 28) + value % 2 ^ 28
      else fs.entryWord disk copy c := by
  rw [Fat32Fs.entryWord, writeFatEntry_table table disk value h hcopy (entrySector_lt hc)]
  split
  · rename_i hsector
    split
    · subst c
      exact u32At_setEntry _ _ _
    · exact u32At_setEntry_of_ne _ _ (by omega)
  · rename_i hsector
    rw [if_neg fun heq => hsector (by rw [heq])]
    rfl

end Table

structure View where
  fat : Nat → Nat
  data : Nat → Sector

def Fat32Fs.view (fs : Fat32Fs) (disk : Disk) : View where
  fat cluster := if cluster < fs.entryCount then fs.readFatEntry disk cluster else 0
  data cluster :=
    if 2 ≤ cluster ∧ cluster < fs.totalClusters then disk (fs.clusterToLba cluster) else zeroSector

def View.setFat (view : View) (cluster value : Nat) : View :=
  { view with fat := update view.fat cluster value }

def View.setData (view : View) (cluster : Nat) (buf : Sector) : View :=
  { view with data := update view.data cluster buf }

@[simp]
theorem View.setData_fat (view : View) (cluster : Nat) (buf : Sector) :
    (view.setData cluster buf).fat = view.fat :=
  rfl

@[simp]
theorem View.setData_data (view : View) (cluster : Nat) (buf : Sector) :
    (view.setData cluster buf).data = update view.data cluster buf :=
  rfl

section View

variable {fs : Fat32Fs} (layout : Layout fs)
include layout

theorem Layout.entry_of_valid (h : fs.Valid cluster) : cluster < fs.entryCount := by
  have := layout.covered
  have := h.2
  omega

theorem readFatEntry_view (disk : Disk) (h : fs.Valid cluster) :
    fs.readFatEntry disk cluster = (fs.view disk).fat cluster :=
  (if_pos (layout.entry_of_valid h)).symm

omit layout in
theorem data_view (disk : Disk) (h : fs.Valid cluster) :
    disk (fs.clusterToLba cluster) = (fs.view disk).data cluster :=
  (if_pos h).symm

theorem view_writeFatEntry (disk : Disk) {value : Nat} (h : fs.Valid cluster)
    (hvalue : value < 2 ^ 28) :
    fs.view (fs.writeFatEntry disk cluster value) = (fs.view disk).setFat cluster value := by
  have hentry := layout.entry_of_valid h
  refine congrArg₂ View.mk (funext fun c => ?_) (funext fun c => ?_)
  · rw [update_apply]
    by_cases hc : c < fs.entryCount
    · simp only [Fat32Fs.view, hc, if_true, readFatEntry_eq layout.table _ hc,
        entryWord_writeFatEntry layout.table disk value hentry Nat.zero_lt_two hc]
      split <;> omega
    · have heq : c ≠ cluster := fun heq => hc (heq ▸ hentry)
      simp only [Fat32Fs.view, hc, if_false, heq]
  · simp only [Fat32Fs.view]
    split
    · rename_i hc
      exact writeFatEntry_of_ne layout.table disk value hentry fun copy hcopy =>
        clusterToLba_ne layout hc hcopy (entrySector_lt hentry)
    · rfl

theorem view_writeData (disk : Disk) (h : fs.Valid cluster) (buf : Sector) :
    fs.view (disk.writeSector .data (fs.clusterToLba cluster) buf) =
      (fs.view disk).setData cluster buf := by
  refine congrArg₂ View.mk (funext fun c => ?_) (funext fun c => ?_)
  · simp only [Fat32Fs.view]
    split
    · rename_i hc
      rw [readFatEntry_eq layout.table _ hc, readFatEntry_eq layout.table _ hc, Fat32Fs.entryWord,
        Disk.writeSector]
      simp only
      rw [update_of_ne (clusterToLba_ne layout h Nat.zero_lt_two (entrySector_lt hc)).symm]
      rfl
    · rfl
  · simp only [Fat32Fs.view, Disk.writeSector]
    by_cases heq : c = cluster
    · subst heq
      rw [update_self, update_self]
      exact if_pos h
    · rw [update_of_ne heq]
      split
      · rename_i hc
        rw [update_of_ne fun hlba => heq (clusterToLba_inj layout hc h hlba)]
      · rfl

end View

end AuraOS.Fat32
