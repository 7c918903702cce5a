import AuraOS.Fat32Operations

namespace AuraOS.Fat32

open LittleEndian LinkedChains Function

variable {copy i : Nat} {label : List UInt8} {o : Obj}

/-- The loop of `format` over the rest of the sectors of both copies of the table. -/
def Fat32Fs.zeroFill (fs : Fat32Fs) (disk : Disk) (sectors : List Nat) : Disk :=
  sectors.foldl (fun disk s =>
    (disk.writeSector .table (fs.sectorAt (fs.tableOffset 0 s)) zeroSector).writeSector .table
      (fs.sectorAt (fs.tableOffset 1 s)) zeroSector) disk

section Sectors

theorem add32_sectorAt (fs : Fat32Fs) (offset i : Nat) :
    add32 (fs.sectorAt offset) i = fs.sectorAt (offset + i) := by
  grind

theorem tableOffset_add (fs : Fat32Fs) (i : Nat) :
    fs.tableOffset 0 0 + i = fs.tableOffset 0 i ∧
      fs.tableOffset 0 fs.sectorsPerFat + i = fs.tableOffset 1 i := by
  grind

variable {fs : Fat32Fs} (layout : Layout fs)
include layout

theorem Layout.valid_root : fs.Valid AuraOS.Fat32.rootCluster := ⟨Nat.le_refl 2, layout.root⟩

theorem formatSectors_eq (totalSectors : Nat) (label : List UInt8) (disk : Disk) :
    fs.formatSectors totalSectors label disk =
      (fs.zeroFill ((((disk.writeSector .reserved (fs.sectorAt 0)
        (bootSector fs totalSectors label)).writeSector .reserved (fs.sectorAt 1)
        (fsInfoSector fs.totalClusters)).writeSector .table (fs.sectorAt (fs.tableOffset 0 0))
        fatSector0).writeSector .table (fs.sectorAt (fs.tableOffset 1 0)) fatSector0)
        (List.range' 1 (fs.sectorsPerFat - 1))).writeSector .data (fs.clusterToLba rootCluster)
        (rootSector label) := by
  have hstart : fs.lbaStart = fs.sectorAt 0 := by
    have := layout.lbaStart
    grind
  have hdata : fs.dataStartLba = fs.clusterToLba rootCluster :=
    layout.dataStartLba.trans (clusterToLba_eq layout layout.valid_root).symm
  have hsecond : fs.tableOffset 0 fs.sectorsPerFat = fs.tableOffset 1 0 :=
    (tableOffset_add fs 0).2
  have hempty : List.range' 1 (fs.sectorsPerCluster - 1) = [] := by
    rw [layout.sectorsPerCluster]
    rfl
  simp only [Fat32Fs.formatSectors, hempty, List.foldl_nil, Fat32Fs.zeroFill, hstart, hdata,
    layout.fatStartLba, add32_sectorAt, (tableOffset_add fs _).1, (tableOffset_add fs _).2,
    Nat.zero_add]
  rw [hsecond]

theorem zeroFill_table {sectors : List Nat} (hsectors : ∀ s ∈ sectors, s < fs.sectorsPerFat)
    (disk : Disk) (hcopy : copy < 2) (hi : i < fs.sectorsPerFat) :
    (fs.zeroFill disk sectors).sectors (fs.sectorAt (fs.tableOffset copy i)) =
      if i ∈ sectors then zeroSector else disk (fs.sectorAt (fs.tableOffset copy i)) := by
  induction sectors generalizing disk with
  | nil => rfl
  | cons s rest ih =>
    have hs := hsectors s (.head _)
    rw [Fat32Fs.zeroFill, List.foldl_cons, ← Fat32Fs.zeroFill,
      ih fun r hr => hsectors r (.tail s hr)]
    by_cases hrest : i ∈ rest
    · rw [if_pos hrest, if_pos (.tail s hrest)]
    · rw [if_neg hrest]
      by_cases his : i = s
      · subst his
        rw [if_pos (.head _)]
        simp only [Disk.writeSector]
        by_cases hfirst : copy = 1
        · rw [hfirst, update_self]
        · obtain rfl : copy = 0 := by omega
          rw [update_of_ne (table_copies_ne layout.table hi hi), update_self]
      · have hne (copy' : Nat) (hcopy' : copy' < 2) : fs.sectorAt (fs.tableOffset copy i) ≠
            fs.sectorAt (fs.tableOffset copy' s) := fun heq =>
          his (tableSector_inj layout.table hcopy hcopy' hi hs heq).2
        rw [if_neg (by simp [his, hrest])]
        simp only [Disk.writeSector]
        rw [update_of_ne (hne 1 Nat.one_lt_two), update_of_ne (hne 0 Nat.zero_lt_two)]

theorem formatSectors_table (totalSectors : Nat) (label : List UInt8) (disk : Disk)
    (hcopy : copy < 2) (hi : i < fs.sectorsPerFat) :
    (fs.formatSectors totalSectors label disk).sectors (fs.sectorAt (fs.tableOffset copy i)) =
      if i = 0 then fatSector0 else zeroSector := by
  have hsectors : ∀ s ∈ List.range' 1 (fs.sectorsPerFat - 1), s < fs.sectorsPerFat := by
    intro s hs
    have := List.mem_range'_1.mp hs
    omega
  have hpos : 0 < fs.sectorsPerFat := by omega
  rw [formatSectors_eq layout, Disk.writeSector]
  simp only
  rw [update_of_ne (clusterToLba_ne layout layout.valid_root hcopy hi).symm,
    zeroFill_table layout hsectors _ hcopy hi]
  by_cases hzero : i = 0
  · subst hzero
    rw [if_neg (by simp), if_pos rfl]
    simp only [Disk.writeSector]
    by_cases hfirst : copy = 1
    · rw [hfirst, update_self]
    · obtain rfl : copy = 0 := by omega
      rw [update_of_ne (table_copies_ne layout.table hpos hpos), update_self]
  · rw [if_neg hzero, if_pos]
    exact List.mem_range'_1.mpr (by omega)

theorem formatSectors_root (totalSectors : Nat) (label : List UInt8) (disk : Disk) :
    (fs.view (fs.formatSectors totalSectors label disk)).data rootCluster = rootSector label := by
  rw [formatSectors_eq layout, view_writeData layout _ layout.valid_root, View.setData_data,
    update_self]

omit layout in
theorem u32At_zeroSector (offset : Nat) : zeroSector.u32At offset = 0 := rfl

omit layout in
theorem u32At_fatSector0 {c : Nat} (h : 3 ≤ c) : fatSector0.u32At (4 * c) = 0 := by
  have hbyte (i : Nat) : fatSector0 (4 * c + i) = 0 := by
    rw [fatSector0, sectorWith]
    simp only [List.foldl_cons, List.foldl_nil]
    rw [copyAt_outside, copyAt_outside, copyAt_outside]
    · rfl
    all_goals
      right
      rw [length_leBytes]
      omega
  rw [Sector.u32At, hbyte, hbyte, hbyte, ← Nat.add_zero (4 * c), hbyte]
  rfl

theorem formatSectors_fat (totalSectors : Nat) (label : List UInt8) (disk : Disk) :
    (fs.view (fs.formatSectors totalSectors label disk)).fat rootCluster = fatEoc ∧
      ∀ c, 3 ≤ c → (fs.view (fs.formatSectors totalSectors label disk)).fat c = fatFree := by
  have hentry (c : Nat) (hc : c < fs.entryCount) :
      (fs.view (fs.formatSectors totalSectors label disk)).fat c =
        (if c / 128 = 0 then fatSector0 else zeroSector).u32At (4 * (c % 128)) % 2 ^ 28 := by
    rw [Fat32Fs.view]
    simp only [hc, if_true]
    rw [readFatEntry_eq layout.table _ hc, Fat32Fs.entryWord,
      formatSectors_table layout _ _ _ Nat.zero_lt_two (entrySector_lt hc)]
  refine ⟨?_, fun c hc => ?_⟩
  · rw [hentry _ (layout.entry_of_valid layout.valid_root)]
    decide +kernel
  · by_cases hentries : c < fs.entryCount
    · rw [hentry c hentries]
      split
      · rw [Nat.mod_eq_of_lt (by omega : c < 128), u32At_fatSector0 hc]
        rfl
      · rw [u32At_zeroSector]
        rfl
    · exact if_neg hentries

end Sectors

section Root

theorem isSkipped_label {slot : Slot} (h : slot.attr = attrVolumeId) : slot.isSkipped = true := by
  rw [Slot.isSkipped, h]
  decide

theorem isLive_rootSector (hlabel : label.length = 11) (i : Nat) :
    ((rootSector label).slot i).isLive = false := by
  cases i with
  | zero =>
    have hbyte (buf : Sector) : buf.copyAt 11 [attrVolumeId] (11 + 0) = attrVolumeId :=
      copyAt_inside buf Nat.zero_lt_one
    have hattr : ((rootSector label).slot 0).attr = attrVolumeId :=
      hbyte (zeroSector.copyAt 0 label)
    rw [Slot.isLive, isSkipped_label hattr, Bool.not_true, Bool.and_false]
  | succ i =>
    have hbyte : (rootSector label) (32 * (i + 1)) = 0 := by
      rw [rootSector, sectorWith, List.foldl_cons, List.foldl_cons, List.foldl_nil,
        copyAt_outside, copyAt_outside]
      · rfl
      · exact .inr (by rw [hlabel]; omega)
      · exact .inr (by rw [List.length_singleton]; omega)
    have hfirst : (rootSector label).slot (i + 1) 0 = 0 := hbyte
    rw [Slot.isLive, Slot.isFree, hfirst]
    rfl

end Root

def formattedObjs : Objs :=
  update (fun _ => none) rootCluster (some ⟨true, [rootCluster], rootCluster⟩)

section Start

variable {fs : Fat32Fs} (layout : Layout fs)
include layout

omit layout in
theorem formattedObjs_eq {k : Nat} (h : formattedObjs k = some o) :
    k = rootCluster ∧ o = ⟨true, [rootCluster], rootCluster⟩ := by
  rcases update_some_cases h with ⟨hk, ho⟩ | ⟨_, hnone⟩
  · exact ⟨hk, ho.symm⟩
  · cases hnone

theorem formatted_dead (totalSectors : Nat) (hlabel : label.length = 11) (disk : Disk) {dir : Nat}
    {p : Nat × Nat} (ho : formattedObjs dir = some o) (hp : p ∈ positions o.chain) :
    ((fs.view (fs.formatSectors totalSectors label disk)).slotAt p).isLive = false := by
  obtain ⟨-, rfl⟩ := formattedObjs_eq ho
  have hp1 : p.1 = rootCluster := List.mem_singleton.mp (mem_positions.mp hp).1
  rw [View.slotAt, hp1, formatSectors_root layout]
  exact isLive_rootSector hlabel p.2

theorem formatted_sound (totalSectors : Nat) (hlabel : label.length = 11) (disk : Disk) :
    Sound fs (fs.view (fs.formatSectors totalSectors label disk)) formattedObjs := by
  have hdead {dir : Nat} {o : Obj} {p : Nat × Nat} (ho : formattedObjs dir = some o)
      (hp : p ∈ positions o.chain) :=
    formatted_dead layout totalSectors hlabel disk ho hp
  have hrefers {dir k : Nat} {p : Nat × Nat}
      (href : Refers (fs.view (fs.formatSectors totalSectors label disk)) formattedObjs dir p k) :
      False := by
    obtain ⟨⟨o, ho, -, hp⟩, hlive, -, -⟩ := href
    rw [hdead ho hp] at hlive
    cases hlive
  refine ⟨⟨_, update_self _ _ _, rfl⟩, fun {k o} ho => ?_, fun {k o} ho => ?_,
    fun {k o} ho x hx => ?_, fun {k k' o o' x} ho ho' _ _ => ?_, fun {dir o p} ho _ hp hlive => ?_,
    fun {dir p k} href => (hrefers href).elim, fun {dir dir' p p' k} href _ => (hrefers href).elim⟩
  · obtain ⟨rfl, rfl⟩ := formattedObjs_eq ho
    exact ⟨rfl, (formatSectors_fat layout totalSectors label disk).1⟩
  · obtain ⟨rfl, rfl⟩ := formattedObjs_eq ho
    exact .head _
  · obtain ⟨rfl, rfl⟩ := formattedObjs_eq ho
    rw [List.mem_singleton.mp hx]
    exact layout.valid_root
  · exact (formattedObjs_eq ho).1.trans (formattedObjs_eq ho').1.symm
  · rw [hdead ho hp] at hlive
    cases hlive

end Start

end AuraOS.Fat32
