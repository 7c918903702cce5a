import AuraOS.IntervalLists
import AuraOS.UsableFrames

namespace AuraOS.PhysicalFrames

open IntervalLists

variable {memoryMap : List MemoryRegion} {addr : Nat}

/-- What the first loop of `init` writes: the recorded regions and the totals. -/
structure MapRecord where
  regions : List MemoryRegion
  totalMemory : UInt64
  maxPhysAddr : UInt64

def MapRecord.empty : MapRecord :=
  ⟨[], 0, 0⟩

def MapRecord.add (record : MapRecord) (region : MemoryRegion) : MapRecord where
  regions := if record.regions.length < maxRegions then record.regions ++ [region]
    else record.regions
  totalMemory := if region.isUsable then record.totalMemory + (region.stop - region.start)
    else record.totalMemory
  maxPhysAddr := if record.maxPhysAddr < region.stop then region.stop else record.maxPhysAddr

section Maps

variable (memoryMap : List MemoryRegion)

def readMap : MapRecord :=
  memoryMap.foldl MapRecord.add MapRecord.empty

/-- The second half of `init`. -/
def MapRecord.pmm (record : MapRecord) : Pmm :=
  (record.regions.filter MemoryRegion.isUsable).foldl Pmm.releaseRegion Pmm.full

def MemoryRegion.interval (region : MemoryRegion) : Interval :=
  ⟨region.start.toNat, region.stop.toNat - region.start.toNat⟩

def usableBytes : Nat :=
  total ((memoryMap.filter MemoryRegion.isUsable).map MemoryRegion.interval)

structure WellFormed (memoryMap : List MemoryRegion) : Prop where
  aligned : PageAligned memoryMap
  ordered : ∀ region ∈ memoryMap, region.start ≤ region.stop
  disjoint : memoryMap.Pairwise fun r r' => ∀ addr, r.interval.Has addr → ¬ r'.interval.Has addr

def WindowFrame (addr : Nat) : Prop :=
  (pmmBase ≤ addr ∧ addr < pmmEnd) ∧ addr % pageSize = 0

theorem foldl_add_regions (record : MapRecord) (h : record.regions.length ≤ maxRegions) :
    (memoryMap.foldl MapRecord.add record).regions =
      (record.regions ++ memoryMap).take maxRegions := by
  induction memoryMap generalizing record with
  | nil => rw [List.foldl_nil, List.append_nil, List.take_of_length_le h]
  | cons region rest ih =>
    by_cases hroom : record.regions.length < maxRegions
    · have hregions : (record.add region).regions = record.regions ++ [region] := if_pos hroom
      rw [List.foldl_cons, ih _ (by rw [hregions, List.length_append]; exact hroom), hregions,
        List.append_assoc, List.singleton_append]
    · have hregions : (record.add region).regions = record.regions := if_neg hroom
      have hfull : record.regions.length = maxRegions := by omega
      rw [List.foldl_cons, ih _ (by rw [hregions]; exact h), hregions, ← hfull, List.take_left,
        List.take_left]

theorem readMap_regions : (readMap memoryMap).regions = memoryMap.take maxRegions :=
  foldl_add_regions memoryMap MapRecord.empty (Nat.zero_le _)

theorem readMap_pmm : (readMap memoryMap).pmm = Pmm.init memoryMap := by
  rw [MapRecord.pmm, readMap_regions, Pmm.init]

theorem usableBytes_cons (region : MemoryRegion) (rest : List MemoryRegion) :
    usableBytes (region :: rest) =
      (if region.isUsable then region.interval.size else 0) + usableBytes rest := by
  simp only [usableBytes, List.filter_cons]
  split
  · rw [List.map_cons, total_cons]
  · rw [Nat.zero_add]

theorem toNat_foldl_add (hordered : ∀ region ∈ memoryMap, region.start ≤ region.stop)
    (record : MapRecord) :
    (memoryMap.foldl MapRecord.add record).totalMemory.toNat =
      (record.totalMemory.toNat + usableBytes memoryMap) % 2 ^ 64 := by
  induction memoryMap generalizing record with
  | nil => exact (Nat.mod_eq_of_lt record.totalMemory.toNat_lt).symm
  | cons region rest ih =>
    have hsize : (region.stop - region.start).toNat = region.interval.size :=
      UInt64.toNat_sub_of_le _ _ (hordered region (.head _))
    rw [List.foldl_cons, ih fun r hr => hordered r (.tail _ hr), usableBytes_cons]
    simp only [MapRecord.add]
    split
    · rw [UInt64.toNat_add, hsize, Nat.mod_add_mod, Nat.add_assoc]
    · rw [Nat.zero_add]

end Maps

theorem WellFormed.usableBytes_lt (h : WellFormed memoryMap) : usableBytes memoryMap < 2 ^ 64 := by
  have hle : usableBytes memoryMap ≤ 2 ^ 64 - 1 := by
    refine total_le_of_disjoint ?_ ?_
    · exact List.pairwise_map.mpr (h.disjoint.sublist List.filter_sublist)
    · intro i hi
      obtain ⟨region, hregion, rfl⟩ := List.mem_map.mp hi
      have hle : region.start.toNat ≤ region.stop.toNat :=
        UInt64.le_iff_toNat_le.mp (h.ordered region (List.mem_of_mem_filter hregion))
      have hword : region.stop.toNat < 2 ^ 64 := region.stop.toNat_lt
      simp only [MemoryRegion.interval, Interval.stop]
      omega
  omega

theorem WellFormed.totalMemory_eq (h : WellFormed memoryMap) :
    (readMap memoryMap).totalMemory.toNat = usableBytes memoryMap := by
  have hzero : MapRecord.empty.totalMemory.toNat = 0 := rfl
  rw [readMap, toNat_foldl_add memoryMap h.ordered, hzero, Nat.zero_add]
  exact Nat.mod_eq_of_lt h.usableBytes_lt

theorem usableFrame_append {front back : List MemoryRegion} :
    UsableFrame (front ++ back) addr ↔ UsableFrame front addr ∨ UsableFrame back addr := by
  simp only [UsableFrame, List.mem_append, or_and_right, exists_or]

theorem MemoryRegion.Contains.has {region : MemoryRegion} (h : region.Contains addr) :
    region.interval.Has addr := by
  simp only [MemoryRegion.Contains, MemoryRegion.interval, Interval.Has, Interval.stop,
    pageSize] at *
  omega

/-- After `init` the frames of the window that are free are those in usable
regions, and the total is that of the usable regions, exactly if no usable
region behind the recorded ones holds a frame of the window. -/
theorem init_exact_iff (memoryMap : List MemoryRegion) (h : WellFormed memoryMap) :
    (∀ addr, WindowFrame addr → ¬ UsableFrame (memoryMap.drop maxRegions) addr) ↔
      (∀ addr, WindowFrame addr →
        ((readMap memoryMap).pmm.FreeAt addr ↔ UsableFrame memoryMap addr)) ∧
      (readMap memoryMap).totalMemory.toNat = usableBytes memoryMap := by
  have hfree : ∀ addr, WindowFrame addr →
      ((readMap memoryMap).pmm.FreeAt addr ↔ UsableFrame (memoryMap.take maxRegions) addr) := by
    intro addr hframe
    rw [readMap_pmm, init_freeAt h.aligned]
    exact and_iff_right hframe
  have hsplit : ∀ addr, UsableFrame memoryMap addr ↔
      UsableFrame (memoryMap.take maxRegions) addr ∨
        UsableFrame (memoryMap.drop maxRegions) addr := by
    intro addr
    rw [← usableFrame_append, List.take_append_drop]
  constructor
  · intro hlate
    refine ⟨fun addr hframe => ?_, h.totalMemory_eq⟩
    rw [hfree addr hframe, hsplit, or_iff_left (hlate addr hframe)]
  · rintro ⟨hexact, -⟩ addr hframe hlate
    obtain ⟨r, hr, -, hcontains⟩ := (hfree addr hframe).mp
      ((hexact addr hframe).mpr ((hsplit addr).mpr (.inr hlate)))
    obtain ⟨r', hr', -, hcontains'⟩ := hlate
    -- the frame would lie in a recorded region and in a later one
    have hapart := h.disjoint
    rw [← List.take_append_drop maxRegions memoryMap, List.pairwise_append] at hapart
    exact hapart.2.2 r hr r' hr' addr hcontains.has hcontains'.has

theorem wellFormed_kernelThenRam : WellFormed kernelThenRam := by
  refine ⟨pageAligned_kernelThenRam, by decide, ?_⟩
  simp only [kernelThenRam, List.pairwise_cons, List.mem_singleton, forall_eq]
  refine ⟨?_, by simp⟩
  intro addr hkernel hram
  have hlt : addr < 0x201000 := hkernel.2
  have hle : 0x201000 ≤ addr := hram.1
  omega

/-- A short map is taken in exactly. -/
theorem init_exact_kernelThenRam :
    (∀ addr, WindowFrame addr →
      ((readMap kernelThenRam).pmm.FreeAt addr ↔ UsableFrame kernelThenRam addr)) ∧
    (readMap kernelThenRam).totalMemory.toNat = usableBytes kernelThenRam := by
  refine (init_exact_iff kernelThenRam wellFormed_kernelThenRam).mp ?_
  rintro addr - ⟨region, hregion, -⟩
  cases hregion

def crowdedMap : List MemoryRegion :=
  (List.range 64).map (fun i => ⟨UInt64.ofNat (i * 4096), UInt64.ofNat ((i + 1) * 4096), .reserved⟩)
    ++ [⟨0x200000, 0x201000, .usable⟩]

theorem wellFormed_crowdedMap : WellFormed crowdedMap := by
  refine ⟨?_, by decide +kernel, ?_⟩
  · have haligned : ∀ region ∈ crowdedMap,
        region.start.toNat % pageSize = 0 ∧ region.stop.toNat % pageSize = 0 := by
      decide +kernel
    exact haligned
  · -- the regions are in ascending order
    have hsorted : crowdedMap.Pairwise fun r r' => r.stop.toNat ≤ r'.start.toNat := by
      decide +kernel
    refine hsorted.imp ?_
    intro r r' hle addr hr hr'
    simp only [MemoryRegion.interval, Interval.Has, Interval.stop] at hr hr'
    omega

/-- The 65th region is not recorded, so its frame stays marked used. -/
theorem crowdedMap_not_exact :
    crowdedMap.length = 65 ∧ WellFormed crowdedMap ∧ WindowFrame 0x200000 ∧
      UsableFrame crowdedMap 0x200000 ∧ ¬ (readMap crowdedMap).pmm.FreeAt 0x200000 := by
  refine ⟨by decide, wellFormed_crowdedMap, ⟨by decide, by decide⟩, ?_, ?_⟩
  · exact ⟨⟨0x200000, 0x201000, .usable⟩, by decide, rfl, by decide, by decide⟩
  · rw [readMap_pmm, init_freeAt wellFormed_crowdedMap.aligned]
    rintro ⟨-, region, hregion, husable, -⟩
    have hreserved : ∀ r ∈ crowdedMap.take maxRegions, r.isUsable = false := by decide +kernel
    rw [hreserved region hregion] at husable
    cases husable

end AuraOS.PhysicalFrames
