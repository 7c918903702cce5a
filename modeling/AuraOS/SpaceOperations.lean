import AuraOS.AreaEffects
import AuraOS.SpaceEffects

namespace AuraOS.UserSpace

open PathTrees PhysicalFrames PageTables VirtualAreas

variable {vaddr offset i virt root : Nat} {gaps : Prop} {space space' : AddressSpace}

section Operations

variable {s : SpaceState} {kern : KernelTables} {tree : TableTree}

structure SameSpace (space space' : AddressSpace) : Prop where
  pml4 : space'.pml4 = space.pml4
  heapStart : space'.heapStart = space.heapStart
  heapEnd : space'.heapEnd = space.heapEnd

theorem SameSpace.trans {a b c : AddressSpace} (h : SameSpace a b) (h' : SameSpace b c) :
    SameSpace a c :=
  ⟨h'.pml4.trans h.pml4, h'.heapStart.trans h.heapStart, h'.heapEnd.trans h.heapEnd⟩

theorem munmap_sameSpace (s : SpaceState) (addr length : Nat) :
    SameSpace s.space (s.munmap addr length).2.space := by
  simp only [SpaceState.munmap]
  split <;> exact ⟨rfl, rfl, rfl⟩

/-- The pages that `munmap` goes through. -/
def unmapCount (addr length : Nat) : Nat :=
  (add64 addr (alignUpPage length) - addr) / pageSize

/-- The pages that `munmap` finds mapped are private. -/
def MunmapFits (kern : KernelTables) (s : SpaceState) (addr length : Nat) : Prop :=
  length ≠ 0 → addr % pageSize = 0 → ∀ i < unmapCount addr length,
    kern.Private (addr + i * pageSize) ∨ pageMapped s.mem s.space.pml4 (addr + i * pageSize) = false

theorem munmap_shrunk (h : OwnsPages s.pages kern s.space.pml4 tree) (addr length : Nat)
    (hpages : MunmapFits kern s addr length) :
    ∃ tree' removed, Shrunk s.pages (s.munmap addr length).2.pages kern s.space.pml4 tree tree'
      removed := by
  simp only [SpaceState.munmap]
  split
  · exact ⟨tree, [], Shrunk.refl h⟩
  · rename_i hargs
    rw [not_or, not_not] at hargs
    exact unmapPages_spec h (hpages hargs.1 hargs.2)

def pagesFrom (vaddr : Nat) : Nat → Nat → List Nat
  | _, 0 => []
  | offset, pages + 1 => add64 vaddr offset :: pagesFrom vaddr (offset + pageSize) pages

theorem mem_pagesFrom {pages : Nat} (h : virt ∈ pagesFrom vaddr offset pages) :
    ∃ i < pages, virt = add64 vaddr (offset + i * pageSize) := by
  induction pages generalizing offset with
  | zero => cases h
  | succ pages ih =>
    rcases List.mem_cons.mp h with rfl | h
    · exact ⟨0, Nat.succ_pos pages, by simp⟩
    · obtain ⟨i, hi, rfl⟩ := ih h
      refine ⟨i + 1, Nat.succ_lt_succ hi, ?_⟩
      rw [Nat.succ_mul, Nat.add_assoc, Nat.add_comm pageSize]

theorem rollback_page (hoffset : offset % pageSize = 0) (hlow : offset + pageSize ≤ 2 ^ 64)
    (hi : i < unmapCount vaddr offset) :
    i * pageSize < offset ∧ add64 vaddr (i * pageSize) = vaddr + i * pageSize := by
  simp only [unmapCount, alignUpPage, add64, pageSize] at *
  omega

theorem populate_attempt (h : OwnsPages s.pages kern s.space.pml4 tree) (hpriv : kern.Private virt)
    {writable ok : Bool} {phys : Nat} {after : PageState}
    (hmap : s.MapsZeroed virt writable ok phys after) :
    ∃ tree' tables, MapAttempt s.pages after kern s.space.pml4 tree virt phys ok tree' tables := by
  obtain ⟨pmm, halloc, hmap⟩ := hmap
  have hmem : ∀ t ≠ phys, ∀ i, s.pages.mem.zeroFrame phys t i = s.pages.mem t i :=
    fun _ ht _ => if_neg ht
  have hspec := mapUserPage_spec h hpriv halloc hmem writable
  rw [PageState.zeroed] at hmap
  simpa only [hmap] using hspec

theorem SpaceState.MapsZeroed.freeCount_pos {writable ok : Bool} {phys : Nat} {after : PageState}
    (hmap : s.MapsZeroed virt writable ok phys after) : 0 < s.pmm.freeCount := by
  obtain ⟨pmm, halloc, -⟩ := hmap
  have hcount := (allocFrame_spec halloc).count
  omega

theorem populate_next {pages : Nat} (hoffset : offset % pageSize = 0)
    (hlow : offset + (pages + 1) * pageSize ≤ 2 ^ 64)
    (hprev : ∀ i, i * pageSize < offset → kern.Private (add64 vaddr (i * pageSize)))
    (hpriv : kern.Private (add64 vaddr offset)) :
    (offset + pageSize) % pageSize = 0 ∧ offset + pageSize + pages * pageSize ≤ 2 ^ 64 ∧
      ∀ i, i * pageSize < offset + pageSize → kern.Private (add64 vaddr (i * pageSize)) := by
  refine ⟨by rw [Nat.add_mod_right, hoffset], by rw [Nat.succ_mul] at hlow; omega, fun i hi => ?_⟩
  by_cases hlt : i * pageSize < offset
  · exact hprev i hlt
  · have heq : i * pageSize = offset := by
      grind
    exact heq ▸ hpriv

def SpaceState.ListsFree (s : SpaceState) : Prop :=
  ∃ a ∈ s.space.allocatedFrames, s.pmm.FreeAt a

theorem listsFree_of_failed {phys : Nat} {after : PageState} {tree' : TableTree} {tables : List Nat}
    (hmap : MapAttempt s.pages after kern s.space.pml4 tree virt phys false tree' tables) :
    phys ∈ after.allocatedFrames ∧ (after.pmm.freeFrame phys).2.FreeAt phys := by
  refine ⟨?_, ?_⟩
  · rw [hmap.grown.listed]
    exact List.mem_append_right _ (.head _)
  · refine ((freeFrame_spec after.pmm phys).free_iff phys).mpr (.inr ⟨rfl, ?_⟩)
    exact (hmap.grown.used phys).mpr (.inr (.head _))

theorem populate_run {mem₀ : Mem} {tree₀ : TableTree} (writable : Bool) {pages : Nat}
    (area : VmArea) {earlier : List Nat} (hshape : Shape mem₀ kern s.space.pml4 tree₀)
    (h : OwnsPages s.pages kern s.space.pml4 tree) (hadvanced : Advanced tree₀ earlier tree)
    (hoffset : offset % pageSize = 0) (hlow : offset + pages * pageSize ≤ 2 ^ 64)
    (hprev : ∀ i, i * pageSize < offset → kern.Private (add64 vaddr (i * pageSize)))
    (hguard : MapsPages kern gaps mem₀ s.space.pml4 earlier s.pmm.freeCount
      (pagesFrom vaddr offset pages)) :
    ∃ tree', PageRun kern s.space.pml4 gaps (s.pages, tree)
        ((SpaceState.populate vaddr writable pages offset area s).2.pages, tree') ∧
      (MapsPages kern False mem₀ s.space.pml4 earlier s.pmm.freeCount
          (pagesFrom vaddr offset pages) ∨
        (SpaceState.populate vaddr writable pages offset area s).2.ListsFree) := by
  induction pages generalizing offset area s tree earlier with
  | zero => exact ⟨tree, .refl, .inl trivial⟩
  | succ pages ih =>
    have hrollback : ∀ s' : SpaceState, MunmapFits kern s' vaddr offset := fun _ _ _ i hi => by
      obtain ⟨hlt, haddr⟩ := rollback_page hoffset (by rw [Nat.succ_mul] at hlow; omega) hi
      exact .inl (haddr ▸ hprev i hlt)
    have hround := populate_round vaddr writable pages offset area s
    generalize SpaceState.populate vaddr writable (pages + 1) offset area s = r at hround
    cases hround with
    | full halloc =>
      obtain ⟨tree', removed, hshrunk⟩ := munmap_shrunk h vaddr offset (hrollback s)
      refine ⟨tree', .single (.unmap hshrunk), .inl fun hpos => ?_⟩
      rw [freeCount_eq_zero halloc] at hpos
      cases hpos
    | @failed phys after hmap =>
      obtain ⟨hpriv, hfits, -⟩ := hguard hmap.freeCount_pos
      obtain ⟨tree', tables, hmap⟩ := populate_attempt h hpriv hmap
      have hshort := not_framesNeeded_le hshape hadvanced hpriv hmap
      have hgaps : gaps := hfits.elim id fun hle => absurd hle hshort
      obtain ⟨tree'', removed, hshrunk⟩ := munmap_shrunk (s := s.giveBack phys after)
        hmap.confined_free.owns vaddr offset (hrollback _)
      obtain ⟨hlisted, hfree⟩ := listsFree_of_failed hmap
      refine ⟨tree'', .tail (.single (.takeBack hgaps hmap)) (.unmap hshrunk),
        .inr ⟨phys, ?_, (hshrunk.free phys).mpr (.inl hfree)⟩⟩
      have hkept : phys ∉ removed := fun hmem => (hmap.failed rfl).1 (hshrunk.was phys hmem)
      have hlist := hshrunk.listed
      simp only [SpaceState.pages] at hlist
      rw [hlist]
      exact List.mem_diff_of_mem hlisted hkept
    | @mapped phys after hmap =>
      obtain ⟨hpriv, -, hrest⟩ := hguard hmap.freeCount_pos
      obtain ⟨tree', tables, hmap⟩ := populate_attempt h hpriv hmap
      obtain ⟨hoffset', hlow', hprev'⟩ := populate_next hoffset hlow hprev hpriv
      obtain ⟨tree'', hrun, hgap⟩ := ih (s := s.setPages after) (area.insertPage
          (add64 vaddr offset) phys) hshape hmap.owns (hadvanced.step hmap) hoffset' hlow'
        hprev' (MapsPages.next hshape hadvanced hpriv hmap hrest)
      refine ⟨tree'', .head (.attempt hmap) hrun, hgap.imp_left fun hfits _ => ?_⟩
      have hcount := freeCount_of_mapped hshape hadvanced hpriv hmap
      simp only [SpaceState.pages] at hcount
      rw [hcount, Nat.add_sub_cancel]
      exact ⟨hpriv, .inr (Nat.le_add_left _ _), fun _ => hfits⟩

/-- The pages that `mmap` populates are reached as `MapsPages` asks. -/
def MmapFits (kern : KernelTables) (gaps : Prop) (s : SpaceState) (addrHint : Option Nat)
    (length : Nat) (flags : BitVec 32) : Prop :=
  length ≠ 0 → flags &&& mapPopulate ≠ 0 → ∀ vaddr space,
    s.space.chooseRange addrHint (alignUpPage length) flags = .ok (vaddr, space) →
    MapsPages kern gaps s.mem s.space.pml4 [] s.pmm.freeCount
      (pagesFrom vaddr 0 (alignUpPage length / pageSize))

theorem mmap_run (h : OwnsPages s.pages kern s.space.pml4 tree) (addrHint : Option Nat)
    (length : Nat) (prot flags : BitVec 32) (hguard : MmapFits kern gaps s addrHint length flags) :
    ∃ tree', PageRun kern s.space.pml4 gaps (s.pages, tree)
        ((s.mmap addrHint length prot flags).2.pages, tree') ∧
      (MmapFits kern False s addrHint length flags ∨
        (s.mmap addrHint length prot flags).2.ListsFree) := by
  simp only [SpaceState.mmap]
  split
  · rename_i hlength
    exact ⟨tree, .refl, .inl fun hpos => absurd hlength hpos⟩
  · rename_i hlength
    cases hchoose : s.space.chooseRange addrHint (alignUpPage length) flags with
    | error e => exact ⟨tree, .refl, .inl fun _ _ _ _ hok => by cases hchoose.symm.trans hok⟩
    | ok choice =>
      obtain ⟨vaddr, space⟩ := choice
      have hspace := chooseRange_same hchoose
      generalize space.mmapBumpPtr = bump at hspace
      subst hspace
      simp only
      split
      · rename_i hpopulate
        have hlen : 0 + alignUpPage length / pageSize * pageSize ≤ 2 ^ 64 := by
          have haligned : alignUpPage length < 2 ^ 64 := by
            grind
          have hmul := Nat.div_mul_le_self (alignUpPage length) pageSize
          omega
        obtain ⟨tree', hrun, hgap⟩ := populate_run
          (s := { s with space := { s.space with mmapBumpPtr := bump } })
          (prot &&& protWrite != 0) (VmArea.new vaddr (alignUpPage length) prot flags false .mmap)
          h.shape h (Advanced.refl tree) (Nat.zero_mod pageSize) hlen (by simp)
          (hguard hlength hpopulate vaddr _ hchoose)
        refine ⟨tree', ?_, hgap.imp (fun hfits _ _ vaddr' space' hok => ?_) fun hfree => ?_⟩
        · split
          · rename_i hpop
            rw [hpop] at hrun
            exact hrun
          · rename_i hpop
            rw [hpop] at hrun
            exact hrun
        · cases hchoose.symm.trans hok
          exact hfits
        · split
          · rename_i hpop
            rw [hpop] at hfree
            exact hfree
          · rename_i hpop
            rw [hpop] at hfree
            exact hfree
      · rename_i hlazy
        exact ⟨tree, .refl, .inl fun _ hpopulate => absurd hpopulate hlazy⟩

theorem mmap_sameSpace (s : SpaceState) (addrHint : Option Nat) (length : Nat)
    (prot flags : BitVec 32) : SameSpace s.space (s.mmap addrHint length prot flags).2.space := by
  have heffect := mmap_effect s addrHint length prot flags
  generalize (s.mmap addrHint length prot flags).1 = result,
    (s.mmap addrHint length prot flags).2.space = after at heffect
  cases heffect with
  | refused => exact ⟨rfl, rfl, rfl⟩
  | rolledBack _ _ hchoose =>
    rw [chooseRange_same hchoose]
    exact ⟨rfl, rfl, rfl⟩
  | mapped _ hchoose =>
    rw [chooseRange_same hchoose]
    exact ⟨rfl, rfl, rfl⟩

/-- The checks of `handle_demand_fault` before it allocates. -/
def SpaceState.faultAccepted (s : SpaceState) (faultAddr : Nat) (isWrite : Bool) : Bool :=
  match s.space.vmas.findIdx? (·.contains faultAddr) with
  | none => false
  | some idx =>
    match s.space.vmas[idx]? with
    | none => false
    | some area => !(area.isGuardPage || area.prot == protNone) && !(isWrite && !area.isWritable)

def FaultFits (kern : KernelTables) (gaps : Prop) (s : SpaceState) (faultAddr : Nat)
    (isWrite : Bool) : Prop :=
  s.faultAccepted faultAddr isWrite = true →
    MapsPages kern gaps s.mem s.space.pml4 [] s.pmm.freeCount [alignDownPage faultAddr]

theorem faultAccepted_iff {faultAddr : Nat} {isWrite : Bool} :
    s.faultAccepted faultAddr isWrite = true ↔
      ∃ area, Admits s.space.vmas faultAddr isWrite area := by
  simp only [SpaceState.faultAccepted, Admits, List.find?_eq_bind_findIdx?_getElem?]
  cases s.space.vmas.findIdx? (·.contains faultAddr) with
  | none => simp
  | some idx =>
    simp only [Option.bind_some]
    cases s.space.vmas[idx]? with
    | none => simp
    | some area => simp [and_assoc, imp_iff_not_or]

theorem handleDemandFault_run (h : OwnsPages s.pages kern s.space.pml4 tree) (faultAddr : Nat)
    (isWrite : Bool) (hguard : FaultFits kern gaps s faultAddr isWrite) :
    ∃ tree', PageRun kern s.space.pml4 gaps (s.pages, tree)
        ((s.handleDemandFault faultAddr isWrite).2.pages, tree') ∧
      (FaultFits kern False s faultAddr isWrite ∨
        (s.handleDemandFault faultAddr isWrite).2.ListsFree) := by
  have heffect := handleDemandFault_effect s faultAddr isWrite
  generalize s.handleDemandFault faultAddr isWrite = r at heffect
  cases heffect with
  | refused hnone =>
    refine ⟨tree, .refl, .inl fun haccepted => ?_⟩
    obtain ⟨area, hadmits⟩ := faultAccepted_iff.mp haccepted
    exact absurd hadmits (hnone area)
  | full halloc =>
    refine ⟨tree, .refl, .inl fun _ hpos => ?_⟩
    rw [freeCount_eq_zero halloc] at hpos
    cases hpos
  | failed hadmits hmap =>
    obtain ⟨hpriv, hfits, -⟩ := hguard (faultAccepted_iff.mpr ⟨_, hadmits⟩) hmap.freeCount_pos
    obtain ⟨tree', tables, hmap⟩ := populate_attempt h hpriv hmap
    have hshort := not_framesNeeded_le h.shape (Advanced.refl tree) hpriv hmap
    have hgaps : gaps := hfits.elim id fun hle => absurd hle hshort
    exact ⟨tree', .single (.takeBack hgaps hmap), .inr ⟨_, listsFree_of_failed hmap⟩⟩
  | mapped hadmits _ hmap =>
    obtain ⟨hpriv, -⟩ := hguard (faultAccepted_iff.mpr ⟨_, hadmits⟩) hmap.freeCount_pos
    obtain ⟨tree', tables, hmap⟩ := populate_attempt h hpriv hmap
    have hcount := freeCount_of_mapped h.shape (Advanced.refl tree) hpriv hmap
    refine ⟨tree', .single (.attempt hmap), .inl fun _ _ => ⟨hpriv, .inr ?_, fun _ => trivial⟩⟩
    exact hcount ▸ Nat.le_add_left _ _

theorem handleDemandFault_sameSpace (s : SpaceState) (faultAddr : Nat) (isWrite : Bool) :
    SameSpace s.space (s.handleDemandFault faultAddr isWrite).2.space := by
  obtain ⟨frames, vmas, hspace, -⟩ := handleDemandFault_space s faultAddr isWrite
  rw [hspace]
  exact ⟨rfl, rfl, rfl⟩

/-- The heap of a space lies between its start and the `mmap` window. -/
structure HeapBounds (space : AddressSpace) : Prop where
  start : space.heapStart = defaultUserHeapStart
  low : defaultUserHeapStart ≤ space.heapEnd
  high : space.heapEnd ≤ mmapBaseStart

theorem SameSpace.heapBounds (h : SameSpace space space') (hheap : HeapBounds space) :
    HeapBounds space' :=
  ⟨h.heapStart.trans hheap.start, h.heapEnd ▸ hheap.low, h.heapEnd ▸ hheap.high⟩

theorem shrink_page {newBrk heapEnd : Nat} (hlow : defaultUserHeapStart ≤ newBrk)
    (hle : newBrk ≤ heapEnd) (hhigh : heapEnd ≤ mmapBaseStart)
    (hlt : alignUpPage newBrk < alignUpPage heapEnd)
    (hi : i < unmapCount (alignUpPage newBrk) (alignUpPage heapEnd - alignUpPage newBrk)) :
    0x40000000 ≤ alignUpPage newBrk + i * pageSize ∧
      alignUpPage newBrk + i * pageSize < 0xC0000000 := by
  simp only [unmapCount, alignUpPage, add64, pageSize, defaultUserHeapStart, mmapBaseStart] at *
  omega

theorem expandHeap_frames (space : AddressSpace) (newBrk : Nat) :
    (space.expandHeap newBrk).pml4 = space.pml4 ∧
      (space.expandHeap newBrk).allocatedFrames = space.allocatedFrames := by
  have heffect := expandHeap_effect space newBrk
  generalize space.expandHeap newBrk = space' at heffect
  cases heffect <;> exact ⟨rfl, rfl⟩

theorem brk_run (h : OwnsPages s.pages kern s.space.pml4 tree) (hheap : HeapBounds s.space)
    (newBrk : Nat) :
    ∃ tree', PageRun kern s.space.pml4 gaps (s.pages, tree) ((s.brk newBrk).2.pages, tree') := by
  rcases brk_cases s newBrk with ⟨heq, -⟩ | ⟨hrange, ⟨-, heq⟩ | ⟨hlt, heq⟩⟩
  · rw [heq]
    exact ⟨tree, .refl⟩
  · rw [heq]
    simp only [SpaceState.pages, (expandHeap_frames s.space newBrk).2]
    exact ⟨tree, .refl⟩
  · rw [heq]
    simp only [SpaceState.shrinkHeap]
    split
    · rename_i hpages
      obtain ⟨tree', removed, hshrunk⟩ := munmap_shrunk h (alignUpPage newBrk)
        (alignUpPage s.space.heapEnd - alignUpPage newBrk) fun _ _ i hi =>
          .inl (private_of_window
            (shrink_page (hheap.start ▸ hrange.1) hlt.le hheap.high hpages hi))
      exact ⟨tree', .single (.unmap hshrunk)⟩
    · exact ⟨tree, .refl⟩

theorem brk_bounds (s : SpaceState) (hheap : HeapBounds s.space) (newBrk : Nat) :
    (s.brk newBrk).2.space.pml4 = s.space.pml4 ∧ HeapBounds (s.brk newBrk).2.space := by
  rcases brk_cases s newBrk with ⟨heq, -⟩ | ⟨⟨hlow, hhigh, -⟩, ⟨-, heq⟩ | ⟨-, heq⟩⟩
  · rw [heq]
    exact ⟨rfl, hheap⟩
  · rw [heq]
    have heffect := expandHeap_effect s.space newBrk
    generalize s.space.expandHeap newBrk = space' at heffect
    cases heffect with
    | refused => exact ⟨rfl, hheap⟩
    | extended => exact ⟨rfl, hheap.start, hheap.start ▸ hlow, hhigh⟩
    | created => exact ⟨rfl, hheap.start, hheap.start ▸ hlow, hhigh⟩
  · obtain ⟨frames, hspace⟩ := shrinkHeap_space s newBrk
    rw [heq, hspace]
    exact ⟨rfl, hheap.start, hheap.start ▸ hlow, hhigh⟩

end Operations

end AuraOS.UserSpace
