import AuraOS.LoadedPages
import AuraOS.SpaceTeardown

namespace AuraOS.UserSpace

open PathTrees PhysicalFrames PageTables VirtualAreas ElfLoader

section Taking

variable {pmm₀ : Pmm} {s : PageState}

variable (h : Held pmm₀ s .empty)
include h

theorem Held.store (mem : Mem) : Held pmm₀ { s with mem := mem } .empty :=
  ⟨h.listed, h.has, h.free, h.held⟩

theorem Held.take {phys : Nat} {pmm : Pmm} (halloc : s.pmm.allocFrame = some (phys, pmm))
    (mem : Mem) : Held pmm₀ ⟨mem, pmm, s.allocatedFrames ++ [phys]⟩ .empty := by
  have hspec := allocFrame_spec halloc
  refine ⟨?_, h.has, fun a ha => h.free a ((hspec.free_iff a).mp ha).1, ?_⟩
  · intro a ha
    rcases List.mem_append.mp ha with ha | ha
    · exact h.listed a ha
    · rw [List.mem_singleton.mp ha]
      exact h.free phys hspec.free
  · intro a ha
    rw [List.mem_append, List.mem_singleton, hspec.free_iff]
    have hheld := h.held a ha
    tauto

theorem nextTable_held (table : Nat) (index : Fin 512) :
    Held pmm₀ (s.nextTable table index).2 .empty := by
  simp only [PageState.nextTable, allocPageTable]
  split
  · exact h.store _
  · cases halloc : s.pmm.allocFrame with
    | none => exact h
    | some r => exact h.take halloc _

omit h in
theorem leafTable_held (virt level table : Nat) (h : Held pmm₀ s .empty) :
    Held pmm₀ (PageState.leafTable virt level table s).2 .empty := by
  induction level generalizing table s with
  | zero => exact h
  | succ level ih =>
    have hnext := nextTable_held h table (tableIndex (level + 1) virt)
    simp only [PageState.leafTable]
    generalize s.nextTable table (tableIndex (level + 1) virt) = result at hnext ⊢
    obtain ⟨_ | next, s₁⟩ := result
    · exact hnext
    · exact ih next hnext

theorem mapUserPage_held (root virt phys : Nat) (writable : Bool) :
    Held pmm₀ (s.mapUserPage root virt phys writable).2 .empty := by
  have hleaf := leafTable_held virt 3 root h
  simp only [PageState.mapUserPage]
  generalize PageState.leafTable virt 3 root s = result at hleaf ⊢
  obtain ⟨_ | table, s₁⟩ := result
  · exact hleaf
  · exact hleaf.store _

theorem allocateAndMapPage_held (root virt : Nat) (writable : Bool) :
    Held pmm₀ (s.allocateAndMapPage root virt writable).2 .empty := by
  simp only [PageState.allocateAndMapPage]
  cases halloc : s.pmm.allocFrame with
  | none => exact h
  | some r =>
    obtain ⟨phys, pmm⟩ := r
    have hmap := mapUserPage_held (h.take halloc (s.mem.writeByte phys 0 0)) root virt phys writable
    simp only
    generalize PageState.mapUserPage ⟨s.mem.writeByte phys 0 0, pmm, s.allocatedFrames ++ [phys]⟩
      root virt phys writable = result at hmap ⊢
    obtain ⟨_ | _, s₁⟩ := result
    · exact hmap
    · exact hmap

omit h in
theorem layPages_held (root : Nat) (images : List PageImage) (h : Held pmm₀ s .empty) :
    Held pmm₀ (layPages root images s).2 .empty := by
  induction images generalizing s with
  | nil => exact h
  | cons image rest ih =>
    have hpage := allocateAndMapPage_held h root image.page true
    simp only [layPages]
    generalize s.allocateAndMapPage root image.page true = result at hpage ⊢
    obtain ⟨_ | frame, s₁⟩ := result
    · exact hpage
    · exact ih (hpage.store _)

end Taking

theorem buildImage_held {pmm₀ : Pmm} {s : SpaceState} (stray : Nat → BitVec 8) (elf : ElfBinary)
    (phdrs : List Elf64ProgramHeader) (h : Held pmm₀ s.pages .empty) :
    Held pmm₀ (buildImage elf phdrs stray s).2.pages .empty := by
  have hsegments := layPages_held s.space.pml4 (loadImages elf.data stray phdrs) h
  rw [← (loadSegments_pages elf.data stray phdrs 0 0 s).1] at hsegments
  simp only [buildImage]
  generalize loadSegments elf.data stray phdrs 0 0 s = result at hsegments ⊢
  obtain ⟨_ | counts, s₁⟩ := result
  · exact hsegments
  · simp only
    split
    · exact hsegments
    · have hstack := layPages_held s₁.space.pml4
        (stackImages defaultUserStackTop defaultUserStackPages 1) hsegments
      rw [← allocateUserStack_pages] at hstack
      generalize s₁.allocateUserStack defaultUserStackTop defaultUserStackPages = result at hstack ⊢
      obtain ⟨_ | _, s₂⟩ := result
      · exact hstack
      · exact hstack

section NewSpace

variable {kernelCr3 : Nat} {mem : Mem} {pmm : Pmm}

theorem exists_freeAt_of_pos (h : 0 < pmm.freeCount) : ∃ a, pmm.FreeAt a := by
  obtain ⟨frame, hframe⟩ := Finset.card_pos.mp h
  obtain ⟨hrange, hfree⟩ := Finset.mem_filter.mp hframe
  exact ⟨_, frame, Finset.mem_range.mp hrange, rfl, hfree⟩

theorem freeCount_pos {a : Nat} (h : pmm.FreeAt a) : 0 < pmm.freeCount := by
  obtain ⟨frame, hframe, -, hfree⟩ := h
  exact Finset.card_pos.mpr ⟨frame, Finset.mem_filter.mpr ⟨Finset.mem_range.mpr hframe, hfree⟩⟩

/-- The first slot of the kernel's root table is present, and the table is not a free
frame that the new space could be given. -/
def ClonesPdpt (kernelCr3 : Nat) (mem : Mem) (pmm : Pmm) : Prop :=
  ¬ pmm.FreeAt kernelCr3 ∧ isPresent (mem kernelCr3 0) = true

theorem kernelEntry_of_ne {pml4 : Nat} (h : kernelCr3 ≠ pml4) :
    ((mem.zeroFrame pml4).copyTable pml4 kernelCr3) kernelCr3 0 = mem kernelCr3 0 := by
  simp only [Mem.copyTable, Mem.zeroFrame, if_neg h]

theorem kernelEntry_of_eq :
    ((mem.zeroFrame kernelCr3).copyTable kernelCr3 kernelCr3) kernelCr3 0 = 0 := by
  simp only [Mem.copyTable, Mem.zeroFrame, if_true]

/-- `AddressSpace::new` fails with nothing free or, where the kernel's PDPT is to be
cloned, after it has taken the only frame; otherwise the space lists what was taken. -/
theorem new_frames (kernelCr3 : Nat) (mem : Mem) (pmm : Pmm) :
    (∃ mem' pmm', AddressSpace.new kernelCr3 mem pmm = (none, mem', pmm') ∧ pmm'.freeCount = 0 ∧
      (pmm' = pmm ∨ pmm.freeCount = 1 ∧ ClonesPdpt kernelCr3 mem pmm)) ∨
    ∃ space mem' pmm', AddressSpace.new kernelCr3 mem pmm = (some space, mem', pmm') ∧
      Held pmm ⟨mem', pmm', space.allocatedFrames⟩ .empty ∧
        ¬ (pmm.freeCount = 1 ∧ ClonesPdpt kernelCr3 mem pmm) := by
  simp only [AddressSpace.new, allocPageTable]
  cases halloc : pmm.allocFrame with
  | none => exact .inl ⟨mem, pmm, rfl, freeCount_eq_zero halloc, .inl rfl⟩
  | some r =>
    obtain ⟨pml4, pmm₁⟩ := r
    have hspec := allocFrame_spec halloc
    have hcount := hspec.count
    have hfirst := (held_start mem pmm).take halloc ((mem.zeroFrame pml4).copyTable pml4 kernelCr3)
    simp only [Option.bind_eq_bind, Option.bind_some, Option.pure_def]
    by_cases hpresent : isPresent ((mem.zeroFrame pml4).copyTable pml4 kernelCr3 kernelCr3 0) = true
    · rw [if_pos hpresent]
      have hne : kernelCr3 ≠ pml4 := by
        rintro rfl
        rw [kernelEntry_of_eq] at hpresent
        exact absurd hpresent (by decide)
      cases halloc₂ : pmm₁.allocFrame with
      | none =>
        have hfull := freeCount_eq_zero halloc₂
        refine .inl ⟨_, pmm₁, rfl, hfull, .inr ⟨by omega, ?_, ?_⟩⟩
        · intro hfree
          have hpos := freeCount_pos ((hspec.free_iff kernelCr3).mpr ⟨hfree, hne⟩)
          omega
        · rw [kernelEntry_of_ne hne] at hpresent
          exact hpresent
      | some r =>
        have hcount₂ := (allocFrame_spec halloc₂).count
        refine .inr ⟨_, _, _, rfl, hfirst.take halloc₂ _, ?_⟩
        rintro ⟨hone, -⟩
        omega
    · rw [if_neg hpresent]
      refine .inr ⟨_, _, _, rfl, hfirst, ?_⟩
      rintro ⟨-, hused, hentry⟩
      have hne : kernelCr3 ≠ pml4 := fun heq => hused (heq ▸ hspec.free)
      rw [kernelEntry_of_ne hne] at hpresent
      exact hpresent hentry

end NewSpace

/-- The two steps of `load_elf` before it takes a frame succeed. -/
def HeadersAccepted (data : List (BitVec 8)) : Prop :=
  ∃ elf phdrs, ElfBinary.parse data = .ok elf ∧ elf.programHeaders = .ok phdrs

def LosesPml4 (kernelCr3 : Nat) (data : List (BitVec 8)) (mem : Mem) (pmm : Pmm) : Prop :=
  HeadersAccepted data ∧ pmm.freeCount = 1 ∧ ClonesPdpt kernelCr3 mem pmm

section Loads

variable {kernelCr3 : Nat} {data : List (BitVec 8)} {stray : Nat → BitVec 8} {mem mem' : Mem}
  {pmm pmm' : Pmm}

theorem loadElf_of_losesPml4 (h : LosesPml4 kernelCr3 data mem pmm) :
    ∃ mem' pmm', loadElf kernelCr3 data stray mem pmm =
        (.error .addressSpaceAllocationFailed, mem', pmm') ∧ pmm'.freeCount = 0 := by
  obtain ⟨⟨elf, phdrs, hparse, hphdrs⟩, hlost⟩ := h
  simp only [loadElf, hparse, hphdrs]
  rcases new_frames kernelCr3 mem pmm with ⟨mem₁, pmm₁, hnew, hfull, -⟩ |
    ⟨space, mem₁, pmm₁, -, -, hkept⟩
  · exact ⟨mem₁, pmm₁, by simp only [hnew], hfull⟩
  · exact absurd hlost hkept

theorem loadElf_error_free (hkept : ¬ LosesPml4 kernelCr3 data mem pmm) {e : ElfError}
    (h : loadElf kernelCr3 data stray mem pmm = (.error e, mem', pmm')) (a : Nat) :
    pmm'.FreeAt a ↔ pmm.FreeAt a := by
  simp only [loadElf] at h
  split at h
  · cases h
    rfl
  · rename_i elf hparse
    split at h
    · cases h
      rfl
    · rename_i phdrs hphdrs
      rcases new_frames kernelCr3 mem pmm with ⟨mem₁, pmm₁, hnew, -, hsame⟩ |
        ⟨space, mem₁, pmm₁, hnew, hheld, -⟩
      · rw [hnew] at h
        cases h
        rcases hsame with rfl | hlost
        · rfl
        · exact absurd ⟨⟨elf, phdrs, hparse, hphdrs⟩, hlost⟩ hkept
      · simp only [hnew] at h
        have hbuilt : Held pmm (buildImage elf phdrs stray ⟨mem₁, pmm₁, space⟩).2.pages .empty :=
          buildImage_held stray elf phdrs hheld
        generalize buildImage elf phdrs stray ⟨mem₁, pmm₁, space⟩ = result at h hbuilt
        obtain ⟨_ | loaded, s⟩ := result
        · cases h
          exact hbuilt.drop a
        · cases h

end Loads

/-- A failing `load_elf` leaves the free frames as they were, except where it finds a
single free frame and takes it for a PML4 that it cannot complete. -/
theorem failed_load_restores_iff (kernelCr3 : Nat) (data : List (BitVec 8))
    (stray : Nat → BitVec 8) (mem : Mem) (pmm : Pmm) :
    ¬ LosesPml4 kernelCr3 data mem pmm ↔
      ∀ e mem' pmm', loadElf kernelCr3 data stray mem pmm = (.error e, mem', pmm') →
        ∀ a, pmm'.FreeAt a ↔ pmm.FreeAt a := by
  constructor
  · intro hkept e mem' pmm' h a
    exact loadElf_error_free hkept h a
  · intro hrestored hlost
    obtain ⟨mem', pmm', hload, hfull⟩ := loadElf_of_losesPml4 hlost
    have hpos : 0 < pmm.freeCount := by
      rw [hlost.2.1]
      exact Nat.one_pos
    obtain ⟨a, ha⟩ := exists_freeAt_of_pos hpos
    have hstill := freeCount_pos ((hrestored _ _ _ hload a).mpr ha)
    omega

/-- One frame is free when a correct program is loaded, and none afterwards. -/
theorem failed_load_loses_frame :
    ∃ mem' pmm', loadElf 0x1000 sampleProgram (fun _ => 0) hardwareTables (fewFrames 1) =
        (.error .addressSpaceAllocationFailed, mem', pmm') ∧
      (fewFrames 1).FreeAt (frameAddr 0) ∧ ¬ pmm'.FreeAt (frameAddr 0) := by
  have hrun : (let r := loadElf 0x1000 sampleProgram (fun _ => 0) hardwareTables (fewFrames 1)
      match r.1 with
      | .error e => decide (e = .addressSpaceAllocationFailed) && r.2.2.isUsed 0
      | .ok _ => false) = true := by
    decide +kernel
  generalize loadElf 0x1000 sampleProgram (fun _ => 0) hardwareTables (fewFrames 1) =
    result at hrun ⊢
  obtain ⟨e | loaded, mem', pmm'⟩ := result
  · simp only [Bool.and_eq_true, decide_eq_true_eq] at hrun
    obtain ⟨rfl, hused⟩ := hrun
    refine ⟨mem', pmm', rfl, ⟨0, by decide, rfl, by decide⟩, ?_⟩
    rintro ⟨frame, -, haddr, hfree⟩
    rw [← frameAddr_inj haddr, hused] at hfree
    cases hfree
  · cases hrun

end AuraOS.UserSpace
