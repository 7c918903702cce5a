import AuraOS.FailedLoads
import AuraOS.FreshPages
import AuraOS.PagePermissions

namespace AuraOS.UserSpace

open PathTrees PhysicalFrames PageTables VirtualAreas ElfLoader

variable {tree tree' : TableTree} {earlier : List Nat} {virt root' segmentsLoaded totalBytes : Nat}
  {mem mem' : Mem} {pages : PageState} {phdrs : List Elf64ProgramHeader} {elf : ElfBinary}
  {loaded : LoadedElf}

section Frames

variable {kern : KernelTables} {root root₀ : Nat} {mem₀ : Mem} {tree₀ : TableTree}

theorem framesNeeded_congr (hshape : Shape mem kern root tree₀)
    (hshape' : Shape mem' kern root' tree')
    (hsame : ∀ q, (tree'.node q).isSome = (tree₀.node q).isSome) (hpriv : kern.Private virt)
    (earlier : List Nat) :
    framesNeeded mem root virt earlier = framesNeeded mem' root' virt earlier := by
  rw [framesNeeded, framesNeeded, tablesMissing, tablesMissing]
  congr 1
  refine List.countP_congr fun n hn => ?_
  rw [← Option.not_isSome, ← Option.not_isSome, hshape virt hpriv _ (by omega),
    hshape' virt hpriv _ (by omega), hsame]

theorem framesFor_congr (hshape : Shape mem kern root tree₀) (hshape' : Shape mem' kern root' tree')
    (hsame : ∀ q, (tree'.node q).isSome = (tree₀.node q).isSome) (pages : List Nat)
    (hpriv : ∀ page ∈ pages, kern.Private page) (earlier : List Nat) :
    framesFor mem root earlier pages = framesFor mem' root' earlier pages := by
  induction pages generalizing earlier with
  | nil => rfl
  | cons page rest ih =>
    rw [framesFor, framesFor,
      framesNeeded_congr hshape hshape' hsame (hpriv page (.head _)),
      ih fun p hp => hpriv p (.tail _ hp)]

end Frames

section Accepted

/-- The frames that `load_elf` takes: two for the tables of the new space, and those
for the pages. -/
def framesToLoad (kernelCr3 : Nat) (mem : Mem) (data : List (BitVec 8))
    (phdrs : List Elf64ProgramHeader) : Nat :=
  2 + framesFor mem kernelCr3 [] (mappedPages data phdrs)

variable {kern : KernelTables} {kernelCr3 : Nat} {data : List (BitVec 8)} {stray : Nat → BitVec 8}
  {mem : Mem} {pmm : Pmm} {elf : ElfBinary} {phdrs : List Elf64ProgramHeader}

theorem map_page_imagePages (data : List (BitVec 8)) (stray : Nat → BitVec 8)
    (phdrs : List Elf64ProgramHeader) :
    (imagePages data stray phdrs).map PageImage.page = mappedPages data phdrs := by
  rw [imagePages, List.map_append, map_page_loadImages, mappedPages]

theorem loadElf_ok_iff (hroot : KernelRoot mem pmm kern kernelCr3)
    (hparse : ElfBinary.parse data = .ok elf) (hphdrs : elf.programHeaders = .ok phdrs)
    (hpriv : ∀ page ∈ loadPages data phdrs, kern.Private page) :
    (∃ loaded mem' pmm', loadElf kernelCr3 data stray mem pmm = (.ok loaded, mem', pmm')) ↔
      (∀ phdr ∈ phdrs, phdr.skipped = false → phdr.invalid data = false) ∧
      (∃ phdr ∈ phdrs, phdr.skipped = false) ∧
      framesToLoad kernelCr3 mem data phdrs ≤ pmm.freeCount := by
  have hdata : elf.data = data := by rw [parse_ok hparse]
  have himages := imagePages_private stray hpriv
  rw [framesToLoad, ← map_page_imagePages data stray phdrs]
  rcases new_frames kernelCr3 mem pmm with ⟨mem₁, pmm₁, hnew, hfull, hshort⟩ |
    ⟨space, mem₁, pmm₁, hnew, -, -⟩
  · constructor
    · rintro ⟨loaded, mem', pmm', hload⟩
      simp only [loadElf, hparse, hphdrs, hnew] at hload
      cases hload
    · rintro ⟨-, -, hframes⟩
      have hfree : pmm.freeCount ≤ 1 := by
        rcases hshort with rfl | hshort
        · omega
        · omega
      omega
  · rcases new_cases hroot with ⟨_, _, _, heq, -⟩ | ⟨space', mem', pmm', tree, heq, hcreated⟩
    · rw [heq] at hnew
      cases hnew
    · rw [heq] at hnew
      cases hnew
      have hcount := hcreated.grown.count
      rw [hcreated.count] at hcount
      have hguard : MapsPages kern True mem kernelCr3 [] pmm₁.freeCount
          ((imagePages data stray phdrs).map PageImage.page) :=
        mapsPages_of_private (List.forall_mem_map.mpr himages)
      have hlays := (layPages_run False hcreated.shape hcreated.owns (Advanced.refl tree) hguard).2
      rw [hcount, Nat.add_comm 2, Nat.add_le_add_iff_right, ← hlays]
      constructor
      · rintro ⟨loaded, mem', pmm', hload⟩
        obtain ⟨elf', phdrs', space', mem₂, pmm₂, s, hparse', hphdrs', hnew', hbuild, -⟩ :=
          loadElf_ok hload
        cases hparse.symm.trans hparse'
        cases hphdrs.symm.trans hphdrs'
        cases heq.symm.trans hnew'
        obtain ⟨hvalid, hsome, pages, hlaid, -⟩ := buildImage_ok_iff.mp hbuild
        rw [hdata] at hvalid hlaid
        exact ⟨hvalid, hsome, congrArg Prod.fst hlaid⟩
      · rintro ⟨hvalid, hsome, hlaid⟩
        have hlaid : layPages (SpaceState.mk mem₁ pmm₁ space).space.pml4
            (imagePages elf.data stray phdrs) (SpaceState.mk mem₁ pmm₁ space).pages = (true, _) :=
          Prod.ext (hdata ▸ hlaid) rfl
        have hbuild := buildImage_ok_iff.mpr ⟨hdata ▸ hvalid, hsome, _, hlaid, rfl, rfl⟩
        simp only [loadElf, hparse, hphdrs, heq, hbuild]
        exact ⟨_, _, _, rfl⟩

theorem loadElf_counts {pmm' : Pmm} (hparse : ElfBinary.parse data = .ok elf)
    (hphdrs : elf.programHeaders = .ok phdrs)
    (hload : loadElf kernelCr3 data stray mem pmm = (.ok loaded, mem', pmm')) :
    loaded.entryPoint = elf.entryPoint ∧
      (loaded.segmentsLoaded, loaded.totalBytes) = loadCounts phdrs (0, 0) := by
  obtain ⟨elf', phdrs', _, _, _, _, hparse', hphdrs', -, hbuild, -⟩ := loadElf_ok hload
  cases hparse.symm.trans hparse'
  cases hphdrs.symm.trans hphdrs'
  obtain ⟨-, -, pages, -, -, rfl⟩ := buildImage_ok_iff.mp hbuild
  exact ⟨rfl, rfl⟩

end Accepted

end AuraOS.UserSpace
