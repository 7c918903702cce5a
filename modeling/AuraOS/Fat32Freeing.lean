import AuraOS.Fat32Capacity

namespace AuraOS.Fat32

open LinkedChains

variable {fs : Fat32Fs} {disk : Disk} {cluster : Nat}

/-- A written entry has the value without its upper bits in every copy, and nothing else changes. -/
theorem writeFatEntry_masked_mirrored {lbaStart totalSectors : Nat}
    (hgeometry : formatGeometry lbaStart totalSectors = .ok fs) (htotal : totalSectors < 2 ^ 32)
    (hcluster : cluster < fs.entryCount) (value : Nat) (disk : Disk) :
    let disk' := fs.writeFatEntry disk cluster value
    fs.readFatEntry disk' cluster = value % 2 ^ 28 ∧
      (∀ copy, copy < fs.numFats →
        fs.entryWord disk' copy cluster % 2 ^ 28 = value % 2 ^ 28 ∧
        fs.entryWord disk' copy cluster / 2 ^ 28 = fs.entryWord disk copy cluster / 2 ^ 28) ∧
      (∀ c, c < fs.entryCount → c ≠ cluster →
        fs.readFatEntry disk' c = fs.readFatEntry disk c ∧
        ∀ copy, copy < fs.numFats → fs.entryWord disk' copy c = fs.entryWord disk copy c) ∧
      ∀ lba, fs.OutsideTable lba → disk' lba = disk lba := by
  intro disk'
  have table := table_of_formatGeometry hgeometry htotal
  have hword {copy c : Nat} (hcopy : copy < fs.numFats) (hc : c < fs.entryCount) :=
    entryWord_writeFatEntry table disk value hcluster (table.numFats ▸ hcopy) hc
  have hfirst : 0 < fs.numFats := by rw [table.numFats]; exact Nat.zero_lt_two
  refine ⟨?_, fun copy hcopy => ?_, fun c hc hne => ⟨?_, fun copy hcopy => ?_⟩, fun lba hlba =>
    writeFatEntry_outside table disk value hcluster hlba⟩
  · rw [readFatEntry_eq table _ hcluster, hword hfirst hcluster, if_pos rfl]
    omega
  · rw [hword hcopy hcluster, if_pos rfl]
    omega
  · rw [readFatEntry_eq table _ hc, readFatEntry_eq table _ hc, hword hfirst hc, if_neg hne]
  · rw [hword hcopy hc, if_neg hne]

theorem writeFatEntry_masked_mirrored_small :
    let disk' := smallVolume.writeFatEntry smallDisk 3 0xF0000005
    smallVolume.readFatEntry disk' 3 = 5 ∧ smallVolume.entryWord disk' 1 3 % 2 ^ 28 = 5 := by
  have hgeometry : formatGeometry 0 1024 = .ok smallVolume := rfl
  have hentry : 3 < smallVolume.entryCount := by decide
  have h := writeFatEntry_masked_mirrored hgeometry (by decide) hentry 0xF0000005 smallDisk
  exact ⟨h.1, (h.2.1 1 (by decide)).1⟩

/-- One round of the loop of `free_cluster_chain`. -/
def Fat32Fs.freeStep (fs : Fat32Fs) : Nat × Disk → Option (Nat × Disk)
  | (cluster, disk) =>
    if isCluster cluster then
      some (fs.readFatEntry disk cluster, fs.writeFatEntry disk cluster fatFree)
    else none

def Fat32Fs.takenClusters (fs : Fat32Fs) (disk : Disk) : Finset Nat :=
  (Finset.range fatBad).filter (fs.readFatEntry disk · ≠ fatFree)

theorem takenClusters_card_lt (hfats : 0 < fs.numFats) (hcluster : isCluster cluster = true)
    (htaken : fs.readFatEntry disk cluster ≠ fatFree) :
    (fs.takenClusters (fs.writeFatEntry disk cluster fatFree)).card <
      (fs.takenClusters disk).card := by
  have hfree {c : Nat} (h : c = cluster ∨ fs.readFatEntry disk c = fatFree) :
      fs.readFatEntry (fs.writeFatEntry disk cluster fatFree) c = fatFree :=
    readFatEntry_writeFatEntry hfats (· = fatFree) rfl h
  rw [isCluster, Bool.and_eq_true, decide_eq_true_eq, decide_eq_true_eq] at hcluster
  refine Finset.card_lt_card (Finset.ssubset_iff_of_subset ?_ |>.mpr ⟨cluster, ?_, ?_⟩)
  · exact Finset.monotone_filter_right _ fun c _ h heq => h (hfree (.inr heq))
  · exact Finset.mem_filter.mpr ⟨Finset.mem_range.mpr hcluster.2, htaken⟩
  · exact fun hmem => (Finset.mem_filter.mp hmem).2 (hfree (.inl rfl))

def Fat32Fs.FreesIn (fs : Fat32Fs) (rounds cluster : Nat) (disk : Disk) : Prop :=
  ∃ last disk', walk fs.freeStep rounds (cluster, disk) = some (last, disk') ∧
    isCluster last = false ∧ ∀ fuel, rounds < fuel → fs.freeChainFrom fuel cluster disk = disk'

theorem freesIn_zero (h : isCluster cluster = false) : fs.FreesIn 0 cluster disk := by
  refine ⟨cluster, disk, rfl, h, fun fuel hfuel => ?_⟩
  obtain ⟨fuel, rfl⟩ := Nat.exists_eq_succ_of_ne_zero (Nat.ne_of_gt hfuel)
  rw [Fat32Fs.freeChainFrom, h, if_neg Bool.false_ne_true]

theorem freesIn_succ (h : isCluster cluster = true) {rounds : Nat} (hrest : fs.FreesIn rounds
      (fs.readFatEntry disk cluster) (fs.writeFatEntry disk cluster fatFree)) :
    fs.FreesIn (rounds + 1) cluster disk := by
  obtain ⟨last, disk', hwalk, hlast, hfuel⟩ := hrest
  refine ⟨last, disk', ?_, hlast, fun fuel hlt => ?_⟩
  · rw [walk, Fat32Fs.freeStep, if_pos h]
    exact hwalk
  · obtain ⟨fuel, rfl⟩ := Nat.exists_eq_succ_of_ne_zero (Nat.ne_zero_of_lt hlt)
    rw [Fat32Fs.freeChainFrom, h, if_pos rfl]
    exact hfuel fuel (by omega)

theorem freeChain_ends (hfats : 0 < fs.numFats) (cluster : Nat) (disk : Disk) :
    ∃ rounds, rounds ≤ (fs.takenClusters disk).card + 1 ∧ fs.FreesIn rounds cluster disk := by
  induction hcard : (fs.takenClusters disk).card using Nat.strong_induction_on
    generalizing cluster disk with
  | _ count ih =>
    cases hcluster : isCluster cluster with
    | false => exact ⟨0, Nat.zero_le _, freesIn_zero hcluster⟩
    | true =>
      by_cases htaken : fs.readFatEntry disk cluster = fatFree
      · refine ⟨1, Nat.le_add_left 1 count, freesIn_succ hcluster (freesIn_zero ?_)⟩
        rw [htaken]
        decide
      · have hlt := takenClusters_card_lt hfats hcluster htaken
        rw [hcard] at hlt
        obtain ⟨rounds, hrounds, hends⟩ := ih _ hlt _ _ rfl
        exact ⟨rounds + 1, by omega, freesIn_succ hcluster hends⟩

/-- `free_cluster_chain` ends on every disk, and it clears exactly the entries of a chain that
ends in a mark. -/
theorem freeClusterChain_ends_and_clears (hfats : 0 < fs.numFats) (disk : Disk) (start : Nat) :
    (∃ rounds last, walk fs.freeStep rounds (start, disk) =
        some (last, fs.freeClusterChain disk start) ∧ isCluster last = false) ∧
      ∀ (lbaStart totalSectors mark : Nat) (chain : List Nat), totalSectors < 2 ^ 32 →
        formatGeometry lbaStart totalSectors = .ok fs → 0x0FFFFFF8 ≤ mark →
        (∀ c ∈ chain, isCluster c = true ∧ c < fs.entryCount) →
        Follows (fs.readFatEntry disk) mark start chain →
        ChainCleared fs disk chain (fs.freeClusterChain disk start) := by
  constructor
  · obtain ⟨rounds, hrounds, last, disk', hwalk, hlast, hfuel⟩ := freeChain_ends hfats start disk
    have hcard : (fs.takenClusters disk).card ≤ fatBad :=
      (Finset.card_filter_le _ _).trans_eq (Finset.card_range _)
    refine ⟨rounds, last, ?_, hlast⟩
    rw [Fat32Fs.freeClusterChain, hfuel _ (by simp only [fatBad, chainFuel] at *; omega)]
    exact hwalk
  · intro lbaStart totalSectors mark chain htotal hgeometry hmark hchain hfollows
    have hend : isCluster mark = false := by
      rw [isCluster, Bool.and_eq_false_iff]
      exact .inr (decide_eq_false (by grind))
    have hlength := length_lt_chainFuel hend (fun c hc => (hchain c hc).1) hfollows
    exact (freeChainFrom_spec (table_of_formatGeometry hgeometry htotal) hend (by omega) hchain
      hfollows).1

theorem freeClusterChain_ends_and_clears_small :
    let disk := smallVolume.writeFatEntry (smallVolume.writeFatEntry smallDisk 3 5) 5 fatEoc
    ∀ copy, copy < smallVolume.numFats →
      smallVolume.entryWord (smallVolume.freeClusterChain disk 3) copy 5 =
        2 ^ 28 * (smallVolume.entryWord disk copy 5 / 2 ^ 28) := by
  intro disk copy hcopy
  have hfollows : Follows (smallVolume.readFatEntry disk) fatEoc 3 [3, 5] :=
    ⟨rfl, by decide +kernel, (by decide +kernel : smallVolume.readFatEntry disk 5 = fatEoc)⟩
  have hfats : 0 < smallVolume.numFats := by decide
  exact ((freeClusterChain_ends_and_clears hfats disk 3).2 0 1024 _ _ (by decide) rfl (by decide)
    (by decide) hfollows).words copy 5 hcopy (by decide)

end AuraOS.Fat32
