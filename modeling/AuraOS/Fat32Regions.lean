import AuraOS.Fat32Names
import AuraOS.Fat32Safety

namespace AuraOS.Fat32

open GuardedRuns

variable {i cluster : Nat}

def Fat32Fs.InPlace (fs : Fat32Fs) (w : Write) : Prop :=
  match w.region with
  | .reserved => ∃ i, i < reservedSectors ∧ w.lba = fs.sectorAt i
  | .table =>
    ∃ copy i, copy < 2 ∧ i < fs.sectorsPerFat ∧ w.lba = fs.sectorAt (fs.tableOffset copy i)
  | .data => ∃ cluster, fs.Valid cluster ∧ w.lba = fs.clusterToLba cluster

def Fat32Fs.CopiesAgree (fs : Fat32Fs) (disk : Disk) : Prop :=
  ∀ i, i < fs.sectorsPerFat →
    disk (fs.sectorAt (fs.tableOffset 0 i)) = disk (fs.sectorAt (fs.tableOffset 1 i))

structure Confined (fs : Fat32Fs) (disk disk' : Disk) : Prop where
  reserved : ∀ i, i < reservedSectors → disk' (fs.sectorAt i) = disk (fs.sectorAt i)
  copies : fs.CopiesAgree disk → fs.CopiesAgree disk'
  writes : ∃ more, disk'.written = disk.written ++ more ∧ ∀ w ∈ more, fs.InPlace w

section Confined

variable {fs : Fat32Fs} {disk disk₁ disk₂ : Disk}

theorem Confined.refl (fs : Fat32Fs) (disk : Disk) : Confined fs disk disk :=
  ⟨fun _ _ => rfl, id, [], (List.append_nil _).symm, nofun⟩

theorem Confined.trans (h : Confined fs disk disk₁) (h' : Confined fs disk₁ disk₂) :
    Confined fs disk disk₂ := by
  obtain ⟨more, hmore, hplace⟩ := h.writes
  obtain ⟨more', hmore', hplace'⟩ := h'.writes
  refine ⟨fun i hi => (h'.reserved i hi).trans (h.reserved i hi), fun hsame =>
    h'.copies (h.copies hsame), more ++ more', ?_, fun w hw => ?_⟩
  · rw [hmore', hmore, List.append_assoc]
  · rcases List.mem_append.mp hw with hw | hw
    · exact hplace w hw
    · exact hplace' w hw

variable (layout : Layout fs)
include layout

theorem reserved_ne_table {copy j : Nat} (hi : i < reservedSectors) (hcopy : copy < 2)
    (hj : j < fs.sectorsPerFat) : fs.sectorAt i ≠ fs.sectorAt (fs.tableOffset copy j) := by
  intro heq
  have hlt := tableOffset_lt hcopy hj
  have hbound := layout.table.fits
  grind

theorem reserved_ne_data (hi : i < reservedSectors) (hvalid : fs.Valid cluster) :
    fs.sectorAt i ≠ fs.clusterToLba cluster := by
  intro heq
  rw [clusterToLba_eq layout hvalid] at heq
  have hsame := sectorAt_inj (by grind)
    (dataOffset_lt layout hvalid) heq
  grind

theorem confined_writeFatEntry (disk : Disk) (value : Nat) (hvalid : fs.Valid cluster) :
    Confined fs disk (fs.writeFatEntry disk cluster value) := by
  have hentry := layout.entry_of_valid hvalid
  have hsector := entrySector_lt hentry
  refine ⟨fun i hi => ?_, fun hsame i hi => ?_,
    [⟨.table, fs.sectorAt (fs.tableOffset 0 (cluster / 128))⟩,
      ⟨.table, fs.sectorAt (fs.tableOffset 1 (cluster / 128))⟩], ?_, fun w hw => ?_⟩
  · exact writeFatEntry_of_ne layout.table disk value hentry fun copy hcopy =>
      reserved_ne_table layout hi hcopy hsector
  · rw [writeFatEntry_table layout.table disk value hentry Nat.zero_lt_two hi,
      writeFatEntry_table layout.table disk value hentry Nat.one_lt_two hi, hsame i hi]
  · rw [writeFatEntry_eq layout.table disk value hentry]
    simp only [Disk.writeSector, List.append_assoc]
    rfl
  · rcases List.mem_cons.mp hw with rfl | hw
    · exact ⟨0, _, Nat.zero_lt_two, hsector, rfl⟩
    · rw [List.mem_singleton.mp hw]
      exact ⟨1, _, Nat.one_lt_two, hsector, rfl⟩

theorem confined_writeData (disk : Disk) (buf : Sector) (hvalid : fs.Valid cluster) :
    Confined fs disk (disk.writeSector .data (fs.clusterToLba cluster) buf) := by
  refine ⟨fun i hi => ?_, fun hsame i hi => ?_, [⟨.data, fs.clusterToLba cluster⟩], rfl,
    fun w hw => ?_⟩
  · exact Function.update_of_ne (reserved_ne_data layout hi hvalid) _ _
  · simp only [Disk.writeSector]
    rw [Function.update_of_ne (clusterToLba_ne layout hvalid Nat.zero_lt_two hi).symm,
      Function.update_of_ne (clusterToLba_ne layout hvalid Nat.one_lt_two hi).symm]
    exact hsame i hi
  · rw [List.mem_singleton.mp hw]
    exact ⟨cluster, hvalid, rfl⟩

theorem Touches.confined (h : Touches fs disk disk₁) : Confined fs disk disk₁ := by
  induction h with
  | refl => exact .refl fs disk
  | entry value _ valid ih => exact ih.trans (confined_writeFatEntry layout _ value valid)
  | sector buf _ valid ih => exact ih.trans (confined_writeData layout _ buf valid)

end Confined

section Format

variable {fs : Fat32Fs} (layout : Layout fs)
include layout

theorem formatted_copiesAgree (totalSectors : Nat) (label : List UInt8) (disk : Disk) :
    fs.CopiesAgree (fs.formatSectors totalSectors label disk) := by
  intro i hi
  rw [formatSectors_table layout _ _ _ Nat.zero_lt_two hi,
    formatSectors_table layout _ _ _ Nat.one_lt_two hi]

omit layout in
theorem zeroFill_written (fs : Fat32Fs) (disk : Disk) (sectors : List Nat) :
    (fs.zeroFill disk sectors).written = disk.written ++ sectors.flatMap fun s =>
      [⟨.table, fs.sectorAt (fs.tableOffset 0 s)⟩, ⟨.table, fs.sectorAt (fs.tableOffset 1 s)⟩] := by
  induction sectors generalizing disk with
  | nil => exact (List.append_nil _).symm
  | cons s rest ih =>
    rw [Fat32Fs.zeroFill, List.foldl_cons, ← Fat32Fs.zeroFill, ih]
    simp only [Disk.writeSector, List.flatMap_cons, List.append_assoc, List.cons_append,
      List.nil_append]

theorem formatted_writes (totalSectors : Nat) (label : List UInt8) (disk : Disk) :
    ∃ more, (fs.formatSectors totalSectors label disk).written = disk.written ++ more ∧
      ∀ w ∈ more, fs.InPlace w := by
  have hpos : 0 < fs.sectorsPerFat := lt_of_lt_of_le (by decide) layout.copies
  rw [formatSectors_eq layout]
  simp only [Disk.writeSector, zeroFill_written, List.append_assoc]
  refine ⟨_, rfl, fun w hw => ?_⟩
  simp only [List.cons_append, List.nil_append, List.mem_cons, List.mem_append, List.mem_flatMap,
    List.not_mem_nil, or_false, List.mem_range'_1] at hw
  rcases hw with rfl | rfl | rfl | rfl | ⟨s, hs, rfl | rfl⟩ | rfl
  · exact ⟨0, by decide, rfl⟩
  · exact ⟨1, by decide, rfl⟩
  · exact ⟨0, 0, Nat.zero_lt_two, hpos, rfl⟩
  · exact ⟨1, 0, Nat.one_lt_two, hpos, rfl⟩
  · exact ⟨0, s, Nat.zero_lt_two, by omega, rfl⟩
  · exact ⟨1, s, Nat.one_lt_two, by omega, rfl⟩
  · exact ⟨rootCluster, layout.valid_root, rfl⟩

end Format

structure RegionsKept (fs : Fat32Fs) (totalSectors : Nat) (before formatted disk : Disk) :
    Prop where
  reserved : ∀ i, i < reservedSectors → disk (fs.lbaStart + i) = formatted (fs.lbaStart + i)
  copies : ∀ i, i < fs.sectorsPerFat →
    disk (fs.fatStartLba + i) = disk (fs.fatStartLba + fs.sectorsPerFat + i)
  entries : ∀ cluster, 3 ≤ cluster → cluster < fs.totalClusters →
    cluster * 4 / sectorSize < fs.sectorsPerFat
  writes : ∃ more, disk.written = before.written ++ more ∧ ∀ w ∈ more,
    fs.lbaStart ≤ w.lba ∧ w.lba < fs.lbaStart + totalSectors ∧
      (w.region = .data → fs.fatStartLba + fs.numFats * fs.sectorsPerFat ≤ w.lba)

section Runs

variable {fs : Fat32Fs} {lbaStart totalSectors : Nat}

theorem totalClusters_le (h : formatGeometry lbaStart totalSectors = .ok fs)
    (hfits : lbaStart + totalSectors ≤ 2 ^ 28) : fs.totalClusters ≤ fatBad := by
  obtain ⟨hmin, _, hfs⟩ := formatGeometry_eq h
  have hsize := fatSize_le hmin
  have hdata : fs.dataStartLba = lbaStart + 32 + 2 * fatSize totalSectors := by
    grind
  have htotal : fs.totalClusters = add32 lbaStart totalSectors - fs.dataStartLba :=
    congrArg Fat32Fs.totalClusters hfs
  grind

theorem confined_step (layout : Layout fs) (disk : Disk) (call : Call) (h : fs.Consistent disk)
    (hcall : fs.Legal disk call) :
    fs.Consistent (fs.step disk call) ∧ Confined fs disk (fs.step disk call) := by
  obtain ⟨objs, sound⟩ := h
  have hcareful := hcall.careful layout sound
  obtain ⟨effect, objs', hperformed⟩ := perform_performed layout sound call hcareful
  exact ⟨⟨objs', hperformed.change.sound layout sound⟩, hperformed.touches.confined layout⟩

theorem sectorAt_eq {offset : Nat} (hfits : fs.lbaStart + totalSectors ≤ 2 ^ 28)
    (hoffset : offset < totalSectors) : fs.sectorAt offset = fs.lbaStart + offset :=
  Nat.mod_eq_of_lt (by omega)

theorem regionsKept_of_confined (layout : Layout fs) (hfits : fs.lbaStart + totalSectors ≤ 2 ^ 28)
    (hend : fs.dataOffset (fs.totalClusters + 2) = totalSectors) {before formatted disk : Disk}
    (hformat : ∃ more, formatted.written = before.written ++ more ∧ ∀ w ∈ more, fs.InPlace w)
    (hcopies : fs.CopiesAgree formatted) (hconfined : Confined fs formatted disk) :
    RegionsKept fs totalSectors before formatted disk := by
  have hdata : fs.dataOffset (fs.totalClusters + 2) = fs.tableOffset 2 0 + fs.totalClusters := by
    grind
  have htable : fs.tableOffset 2 0 < totalSectors := by
    have := layout.root
    omega
  have hfat : fs.fatStartLba = fs.lbaStart + fs.tableOffset 0 0 := by
    rw [layout.fatStartLba]
    refine sectorAt_eq hfits (lt_of_le_of_lt ?_ htable)
    grind
  have hoffset (copy i : Nat) (hcopy : copy < 2) (hi : i < fs.sectorsPerFat) :
      fs.sectorAt (fs.tableOffset copy i) = fs.lbaStart + fs.tableOffset copy i :=
    sectorAt_eq hfits ((tableOffset_lt hcopy hi).trans htable)
  refine ⟨fun i hi => ?_, fun i hi => ?_, fun cluster _ hcluster => ?_, ?_⟩
  · have hlt : i < totalSectors := by
      grind
    rw [← sectorAt_eq hfits hlt]
    exact hconfined.reserved i hi
  · have hsame := hconfined.copies hcopies i hi
    rw [hoffset 0 i Nat.zero_lt_two hi, hoffset 1 i Nat.one_lt_two hi] at hsame
    have hfirst : fs.fatStartLba + i = fs.lbaStart + fs.tableOffset 0 i := by
      rw [hfat, ← (tableOffset_add fs i).1, Nat.add_assoc]
    have hsecond : fs.fatStartLba + fs.sectorsPerFat + i = fs.lbaStart + fs.tableOffset 1 i := by
      grind
    rw [hfirst, hsecond]
    exact hsame
  · have hcovered := layout.covered
    grind
  · obtain ⟨more, hmore, hplace⟩ := hformat
    obtain ⟨more', hmore', hplace'⟩ := hconfined.writes
    refine ⟨more ++ more', by rw [hmore', hmore, List.append_assoc], fun w hw => ?_⟩
    have hw' : fs.InPlace w := (List.mem_append.mp hw).elim (hplace w) (hplace' w)
    obtain ⟨region, lba⟩ := w
    cases region with
    | reserved =>
      obtain ⟨i, hi, rfl⟩ := hw'
      have hlt : i < totalSectors := by
        grind
      rw [sectorAt_eq hfits hlt]
      exact ⟨Nat.le_add_right _ _, Nat.add_lt_add_left hlt _, nofun⟩
    | table =>
      obtain ⟨copy, i, hcopy, hi, rfl⟩ := hw'
      have hlt := (tableOffset_lt hcopy hi).trans htable
      rw [hoffset copy i hcopy hi]
      exact ⟨Nat.le_add_right _ _, Nat.add_lt_add_left hlt _, nofun⟩
    | data =>
      obtain ⟨cluster, hvalid, rfl⟩ := hw'
      have hlt : fs.dataOffset cluster < totalSectors := by
        have := hvalid.2
        grind
      rw [clusterToLba_eq layout hvalid, sectorAt_eq hfits hlt]
      refine ⟨Nat.le_add_right _ _, Nat.add_lt_add_left hlt _, fun _ => ?_⟩
      rw [hfat, layout.numFats]
      grind

theorem confined_run (layout : Layout fs) (label : List UInt8) (disk : Disk) (calls : List Call)
    (hcalls : Guarded fs.step fs.Legal
      (fs.formatSectors totalSectors (padTo 11 label) disk) calls) :
    Confined fs (fs.formatSectors totalSectors (padTo 11 label) disk)
      (calls.foldl fs.step (fs.formatSectors totalSectors (padTo 11 label) disk)) := by
  have hsound := formatted_sound layout totalSectors (length_padTo 11 label) disk
  generalize fs.formatSectors totalSectors (padTo 11 label) disk = formatted at hsound hcalls ⊢
  have hstep (s : Disk) (call : Call) (h : fs.Consistent s ∧ Confined fs formatted s)
      (hcall : fs.Legal s call) :
      fs.Consistent (fs.step s call) ∧ Confined fs formatted (fs.step s call) :=
    (confined_step layout s call h.1 hcall).imp_right h.2.trans
  exact (invariant_of_guarded hstep ⟨⟨formattedObjs, hsound⟩, .refl fs formatted⟩ hcalls).2

end Runs

/-- Legal calls, also ones that fail, keep the regions of a volume apart and the copies of its
table alike. -/
theorem regions_kept {disk disk₀ : Disk} {lbaStart totalSectors : Nat} {label : List UInt8}
    {fs : Fat32Fs} (hfits : lbaStart + totalSectors ≤ 2 ^ 28)
    (hformat : format disk lbaStart totalSectors label = (.ok fs, disk₀)) (calls : List Call)
    (hcalls : Guarded fs.step fs.Legal disk₀ calls) :
    fs.lbaStart = lbaStart ∧
      RegionsKept fs totalSectors disk disk₀ (calls.foldl fs.step disk₀) := by
  obtain ⟨hgeometry, rfl⟩ := format_eq hformat
  obtain ⟨layout, hstart, hend⟩ := layout_of_formatGeometry hgeometry (by omega) (by omega)
    (totalClusters_le hgeometry hfits)
  rw [← hstart] at hfits
  have hconfined := confined_run layout label disk calls hcalls
  exact ⟨hstart, regionsKept_of_confined layout hfits hend
    (formatted_writes layout totalSectors (padTo 11 label) disk)
    (formatted_copiesAgree layout totalSectors (padTo 11 label) disk) hconfined⟩

theorem legalPath_small : LegalPath pathA ∧ LegalPath pathAB := by
  have hpart (b : UInt8) (hb : isNameByte b = true) : LegalName [b] :=
    .inl ⟨List.cons_ne_nil b [], by simp, by simpa using hb⟩
  have hA : segments pathA = [[0x41]] := by decide
  have hAB : segments pathAB = [[0x41], [0x42]] := by decide
  constructor
  · intro part h
    rw [hA, List.mem_singleton] at h
    exact h ▸ hpart 0x41 (by decide)
  · intro part h
    rw [hAB, List.mem_cons, List.mem_singleton] at h
    rcases h with rfl | rfl
    · exact hpart 0x41 (by decide)
    · exact hpart 0x42 (by decide)

theorem smallCalls_legal : Guarded smallVolume.step smallVolume.Legal smallDisk smallCalls := by
  obtain ⟨hA, hAB⟩ := legalPath_small
  obtain ⟨hnew, hagain, _⟩ := smallCalls_targets
  refine ⟨⟨hA, nofun⟩, ⟨hAB, ?_⟩, ⟨hAB, ?_⟩, ⟨hAB, nofun⟩, trivial⟩
  · rintro path data entry ⟨⟩ h
    cases hnew.symm.trans h
  · rintro path data entry ⟨⟩ h
    cases hagain.symm.trans h
    rfl

theorem regions_kept_small :
    smallVolume.lbaStart = 0 ∧ RegionsKept smallVolume 1024 blankDisk smallDisk
      (smallCalls.foldl smallVolume.step smallDisk) :=
  regions_kept (by decide) format_blankDisk smallCalls smallCalls_legal

end AuraOS.Fat32
