import AuraOS.ElfLoader
import AuraOS.PageImages

namespace AuraOS.UserSpace

open ElfLoader PathTrees PhysicalFrames PageTables VirtualAreas

variable {pmm pmm' : Pmm} {space : AddressSpace} {mem' mem : Mem} {tree : TableTree}
  {s : SpaceState} {root kernelCr3 : Nat} {earlier : List Nat}

structure KernelRoot (mem : Mem) (pmm : Pmm) (kern : KernelTables) (kernelCr3 : Nat) : Prop where
  pml4 : mem kernelCr3 = kern.pml4
  pdpt : mem (entryAddr (kern.pml4 0)) = kern.pdpt
  pml4NotFree : ¬ pmm.FreeAt kernelCr3
  pdptNotFree : ¬ pmm.FreeAt (entryAddr (kern.pml4 0))

/-- The tables that `init_hardware_mappings` leaves, in an otherwise empty memory: the
first 512 MiB in pages of 2 MiB and the fourth GiB in one page. -/
def hardwareTables : Mem := fun table index =>
  if table = 0x1000 then if index = 0 then 0x2003 else 0
  else if table = 0x2000 then if index = 0 then 0x3003 else if index = 3 then 0xC0000083 else 0
  else if table = 0x3000 then
    if index.val < 256 then BitVec.ofNat 64 (index.val * 0x200000) ||| 0x83 else 0
  else 0

def hardwareKernel : KernelTables where
  pml4 := hardwareTables 0x1000
  pdpt := hardwareTables 0x2000
  first := by decide
  window := by
    rintro j (rfl | rfl) <;> decide
  pml4Supervisor := by
    intro i hi
    simp [hardwareTables, hi, hasFlag]
  pdptSupervisor := by
    intro j
    have htable : hardwareTables 0x2000 j =
        if j = 0 then 0x3003 else if j = 3 then 0xC0000083 else 0 := rfl
    rw [htable]
    split
    · decide
    · split <;> decide

def fewFrames (n : Nat) : Pmm :=
  ⟨fun word => if word = 0 then BitVec.allOnes 64 <<< n else BitVec.allOnes 64⟩

theorem not_freeAt_of_low {a : Nat} (h : a < pmmBase) : ¬ pmm.FreeAt a := by
  rintro ⟨frame, hframe, rfl, -⟩
  exact Nat.not_lt.mpr (frameAddr_window hframe).1.1 h

theorem hardwareKernel_root (pmm : Pmm) : KernelRoot hardwareTables pmm hardwareKernel 0x1000 := by
  have haddr : entryAddr (hardwareKernel.pml4 0) = 0x2000 := by decide
  refine ⟨rfl, ?_, not_freeAt_of_low (by decide), ?_⟩
  · rw [haddr]
    rfl
  · rw [haddr]
    exact not_freeAt_of_low (by decide)

theorem exists_new {n : Nat} {P : SpaceState → Prop} [DecidablePred P]
    (h : let r := AddressSpace.new 0x1000 hardwareTables (fewFrames n)
      (r.1.any fun space => P ⟨r.2.1, r.2.2, space⟩) = true) :
    ∃ space mem' pmm', AddressSpace.new 0x1000 hardwareTables (fewFrames n) =
      (some space, mem', pmm') ∧ P ⟨mem', pmm', space⟩ := by
  obtain ⟨space, hspace, htest⟩ := (Option.any_eq_true _ _).mp h
  exact ⟨space, _, _, Prod.ext hspace rfl, of_decide_eq_true htest⟩

section Creation

variable {mem : Mem} {pmm : Pmm} {kern : KernelTables} {kernelCr3 : Nat}

structure Created (mem : Mem) (pmm : Pmm) (kern : KernelTables) (kernelCr3 : Nat)
    (space : AddressSpace) (mem' : Mem) (pmm' : Pmm) (tree : TableTree) : Prop where
  grown : Grown ⟨mem, pmm, []⟩ ⟨mem', pmm', space.allocatedFrames⟩ .empty space.allocatedFrames
  count : space.allocatedFrames.length = 2
  owns : OwnsPages ⟨mem', pmm', space.allocatedFrames⟩ kern space.pml4 tree
  has : ∀ a, tree.Has a ↔ a ∈ space.allocatedFrames
  shape : Shape mem kern kernelCr3 tree
  heap : HeapBounds space

theorem heapBounds_new (pml4 : Nat) (allocatedFrames : List Nat) :
    HeapBounds ⟨pml4, allocatedFrames, [], mmapBaseStart, defaultUserHeapStart,
      defaultUserHeapStart⟩ :=
  have hle : defaultUserHeapStart ≤ mmapBaseStart := by decide
  ⟨rfl, le_rfl, hle⟩

theorem new_cases (h : KernelRoot mem pmm kern kernelCr3) :
    (∃ mem' pmm' leaked, AddressSpace.new kernelCr3 mem pmm = (none, mem', pmm') ∧
      Grown ⟨mem, pmm, []⟩ ⟨mem', pmm', leaked⟩ .empty leaked ∧ pmm'.freeCount = 0) ∨
    ∃ space mem' pmm' tree, AddressSpace.new kernelCr3 mem pmm = (some space, mem', pmm') ∧
      Created mem pmm kern kernelCr3 space mem' pmm' tree := by
  simp only [AddressSpace.new, allocPageTable]
  cases halloc : pmm.allocFrame with
  | none =>
    exact .inl ⟨mem, pmm, [], rfl, Grown.refl _ _, freeCount_eq_zero halloc⟩
  | some r =>
    obtain ⟨pml4, pmm₁⟩ := r
    have hfirst := allocFrame_spec halloc
    have hroot : kernelCr3 ≠ pml4 := fun heq => h.pml4NotFree (heq ▸ hfirst.free)
    have hpdpt : entryAddr (kern.pml4 0) ≠ pml4 := fun heq => h.pdptNotFree (heq ▸ hfirst.free)
    have hcopy : ∀ i, (mem.zeroFrame pml4).copyTable pml4 kernelCr3 kernelCr3 i = kern.pml4 i := by
      intro i
      simp only [Mem.copyTable, Mem.zeroFrame, if_neg hroot, h.pml4]
    have hgrown₁ : Grown ⟨mem, pmm, []⟩
        ⟨(mem.zeroFrame pml4).copyTable pml4 kernelCr3, pmm₁, [pml4]⟩ .empty [pml4] :=
      grown_of_allocated hfirst fun t _ hne i => by
        simp only [Mem.copyTable, Mem.zeroFrame, if_neg hne]
    simp only [Option.bind_eq_bind, Option.bind_some, Option.pure_def, hcopy, kern.first, if_true]
    cases halloc₂ : pmm₁.allocFrame with
    | none => exact .inl ⟨_, pmm₁, [pml4], rfl, hgrown₁, freeCount_eq_zero halloc₂⟩
    | some r =>
      obtain ⟨pdpt, pmm₂⟩ := r
      have hsecond := allocFrame_spec halloc₂
      have hne : pdpt ≠ pml4 := ((hfirst.free_iff pdpt).mp hsecond.free).2
      have hpdpt₂ : entryAddr (kern.pml4 0) ≠ pdpt := fun heq =>
        h.pdptNotFree (heq ▸ ((hfirst.free_iff pdpt).mp hsecond.free).1)
      have hgrown₂ : Grown ⟨(mem.zeroFrame pml4).copyTable pml4 kernelCr3, pmm₁, [pml4]⟩
          ⟨((((mem.zeroFrame pml4).copyTable pml4 kernelCr3).zeroFrame pdpt).copyTable pdpt
            (entryAddr (kern.pml4 0))).setEntry pml4 0 (makeEntry pdpt tableFlags), pmm₂,
            [pml4] ++ [pdpt]⟩ (.single pml4) [pdpt] := by
        refine grown_of_allocated hsecond fun t ht hne' i => ?_
        have hpml4 : t ≠ pml4 := fun heq => ht ((single_has pml4 t).mpr heq)
        rw [setEntry_of_ne hpml4]
        simp only [Mem.copyTable, Mem.zeroFrame, if_neg hne']
      have hrep : Represents
          (((((mem.zeroFrame pml4).copyTable pml4 kernelCr3).zeroFrame pdpt).copyTable pdpt
            (entryAddr (kern.pml4 0))).setEntry pml4 0 (makeEntry pdpt tableFlags)) kern pml4
          (clonedTree pml4 pdpt hne) := by
        refine represents_clonedTree hne (setEntry_self ..) (fun i hi => ?_) fun j => ?_
        · rw [setEntry_apply, if_neg (by simp [hi])]
          simp only [Mem.copyTable, Mem.zeroFrame, if_neg hne.symm, if_true, if_neg hroot, h.pml4]
        · rw [setEntry_of_ne hne]
          simp only [Mem.copyTable, Mem.zeroFrame, if_true, if_neg hpdpt₂, if_neg hpdpt, h.pdpt]
      refine .inr ⟨_, _, _, clonedTree pml4 pdpt hne, rfl,
        hgrown₁.trans hgrown₂ fun a ha => .inr ?_, rfl, ⟨hrep, ?_⟩, ?_,
        shape_clonedTree hne h.pml4 h.pdpt, heapBounds_new _ _⟩
      · simpa using (single_has pml4 a).mp ha
      · intro a ha
        rcases (clonedTree_has hne a).mp ha with rfl | rfl
        · exact (hsecond.used_iff a).mpr (.inl ((hfirst.used_iff a).mpr (.inr rfl)))
        · exact (hsecond.used_iff a).mpr (.inr rfl)
      · intro a
        rw [clonedTree_has]
        simp

theorem Created.accounts (h : Created mem pmm kern kernelCr3 space mem' pmm' tree) :
    Accounts ⟨mem', pmm', space.allocatedFrames⟩ tree :=
  ⟨h.grown.nodup, fun a ha => (h.grown.used a).mpr (.inr ha), fun a ha => (h.has a).mp ha⟩

end Creation

section Dropping

theorem drop_spec (space : AddressSpace) (pmm : Pmm) (a : Nat) :
    ((space.drop pmm).FreeAt a ↔ pmm.FreeAt a ∨ a ∈ space.allocatedFrames ∧ pmm.UsedAt a) ∧
      ((space.drop pmm).UsedAt a ↔ pmm.UsedAt a ∧ a ∉ space.allocatedFrames) := by
  rw [AddressSpace.drop]
  induction space.allocatedFrames generalizing pmm with
  | nil => simp
  | cons addr rest ih =>
    have hfreed := freeFrame_spec pmm addr
    rw [List.foldl_cons, (ih _).1, (ih _).2, hfreed.free_iff, hfreed.used_iff, List.mem_cons]
    constructor
    · constructor
      · rintro ((hfree | ⟨rfl, hused⟩) | ⟨hmem, hused, -⟩)
        · exact .inl hfree
        · exact .inr ⟨.inl rfl, hused⟩
        · exact .inr ⟨.inr hmem, hused⟩
      · rintro (hfree | ⟨rfl | hmem, hused⟩)
        · exact .inl (.inl hfree)
        · exact .inl (.inr ⟨rfl, hused⟩)
        · by_cases heq : a = addr
          · exact .inl (.inr ⟨heq, heq ▸ hused⟩)
          · exact .inr ⟨hmem, hused, heq⟩
    · rw [not_or, and_assoc]

end Dropping

section Loading

variable {kern : KernelTables} {mem₀ : Mem} {root₀ : Nat} {tree₀ : TableTree}

def pagesUp : Nat → Nat → List Nat
  | _, 0 => []
  | page, pages + 1 => page :: pagesUp (page + pageSize) pages

def loadPages (data : List (BitVec 8)) : List Elf64ProgramHeader → List Nat
  | [] => []
  | phdr :: rest =>
    if phdr.skipped then loadPages data rest
    else if phdr.invalid data then []
    else pagesUp phdr.pageStart phdr.eagerPages ++ loadPages data rest

section Segments

variable (data : List (BitVec 8)) (stray : Nat → BitVec 8) (phdr : Elf64ProgramHeader)

def segmentImage (page : Nat) : PageImage where
  page := page
  offset := max page phdr.pVaddr - page
  bytes := (List.range (min (add64 page pageSize) phdr.fileDataEnd - max page phdr.pVaddr)).map
    fun k => sourceByte data stray
      (add64 (add64 phdr.pOffset (max page phdr.pVaddr - phdr.pVaddr)) k)

theorem copySegment_eq (page frame : Nat) (mem : Mem) :
    copySegment data stray phdr page frame mem =
      mem.copyBytes frame (segmentImage data stray phdr page).offset
        (segmentImage data stray phdr page).bytes := by
  simp only [copySegment, segmentImage]
  split
  · rfl
  · rename_i hempty
    rw [Nat.sub_eq_zero_of_le (Nat.le_of_not_lt hempty)]
    rfl

theorem mapEager_eq (root pages page : Nat) (s : PageState) :
    mapEager data stray phdr root pages page s =
      layPages root ((pagesUp page pages).map (segmentImage data stray phdr)) s := by
  induction pages generalizing page s with
  | zero => rfl
  | succ pages ih =>
    simp only [mapEager, pagesUp, List.map_cons, layPages, segmentImage, ih, copySegment_eq]
    rfl

def loadImages : List Elf64ProgramHeader → List PageImage
  | [] => []
  | phdr :: rest =>
    if phdr.skipped then loadImages rest
    else if phdr.invalid data then []
    else (pagesUp phdr.pageStart phdr.eagerPages).map (segmentImage data stray phdr) ++
      loadImages rest

variable (phdrs : List Elf64ProgramHeader)

theorem map_page_loadImages :
    (loadImages data stray phdrs).map PageImage.page = loadPages data phdrs := by
  induction phdrs with
  | nil => rfl
  | cons phdr rest ih =>
    rw [loadImages, loadPages]
    split
    · exact ih
    · split
      · rfl
      · have hpages : PageImage.page ∘ segmentImage data stray phdr = id := rfl
        rw [List.map_append, List.map_map, hpages, List.map_id, ih]

theorem loadSegments_pages (segmentsLoaded totalBytes : Nat) (s : SpaceState) :
    (loadSegments data stray phdrs segmentsLoaded totalBytes s).2.pages =
        (layPages s.space.pml4 (loadImages data stray phdrs) s.pages).2 ∧
      SameSpace s.space (loadSegments data stray phdrs segmentsLoaded totalBytes s).2.space := by
  induction phdrs generalizing segmentsLoaded totalBytes s with
  | nil => exact ⟨rfl, rfl, rfl, rfl⟩
  | cons phdr rest ih =>
    simp only [loadSegments, loadImages, loadSegment, mapEager_eq]
    cases phdr.skipped with
    | true => exact ih segmentsLoaded totalBytes s
    | false =>
      cases phdr.invalid data with
      | true => exact ⟨rfl, rfl, rfl, rfl⟩
      | false =>
        simp only [Bool.false_eq_true, if_false, layPages_append]
        generalize layPages s.space.pml4 (List.map _ _) s.pages = result
        obtain ⟨_ | _, pages⟩ := result
        · exact ⟨rfl, rfl, rfl, rfl⟩
        · generalize phdr.area = area
          obtain ⟨hpml4, hstart, hend⟩ := addVma_sameSpace (s.setPages pages) area
          obtain ⟨hrest, hsame⟩ := ih (segmentsLoaded + 1) (add64 totalBytes phdr.pMemsz)
            ((s.setPages pages).addVma area).2
          rw [addVma_pages, hpml4] at hrest
          exact ⟨hrest, SameSpace.trans ⟨hpml4, hstart, hend⟩ hsame⟩

end Segments

theorem stack_page {j : Nat} (h : 1 ≤ j) (hj : j < 1 + defaultUserStackPages) :
    0x40000000 ≤ sub64 defaultUserStackTop (j * pageSize % 2 ^ 64) ∧
      sub64 defaultUserStackTop (j * pageSize % 2 ^ 64) < 0xC0000000 := by
  simp only [sub64, defaultUserStackTop, defaultUserStackPages, pageSize] at *
  omega

theorem buildImage_run (elf : ElfBinary) (phdrs : List Elf64ProgramHeader) (stray : Nat → BitVec 8)
    (hshape : Shape mem₀ kern root₀ tree₀) (h : OwnsPages s.pages kern s.space.pml4 tree)
    (hadvanced : Advanced tree₀ earlier tree)
    (hguard : MapsPages kern True mem₀ root₀ earlier s.pmm.freeCount (loadPages elf.data phdrs)) :
    ∃ tree', PageRun kern s.space.pml4 False (s.pages, tree)
        ((buildImage elf phdrs stray s).2.pages, tree') ∧
      SameSpace s.space (buildImage elf phdrs stray s).2.space ∧
      ∀ loaded, (buildImage elf phdrs stray s).1 = .ok loaded →
        loaded.space = (buildImage elf phdrs stray s).2.space := by
  rw [← map_page_loadImages elf.data stray] at hguard
  obtain ⟨⟨tree₁, hrun⟩, -⟩ := layPages_run False hshape h hadvanced hguard
  obtain ⟨hpages, hsame⟩ := loadSegments_pages elf.data stray phdrs 0 0 s
  rw [← hpages] at hrun
  rw [buildImage]
  generalize loadSegments elf.data stray phdrs 0 0 s = result at hrun hsame ⊢
  obtain ⟨_ | ⟨segmentsLoaded, totalBytes⟩, s₁⟩ := result
  · exact ⟨tree₁, hrun, hsame, fun _ herror => nomatch herror⟩
  · simp only at hrun hsame ⊢
    by_cases hzero : segmentsLoaded = 0
    · rw [if_pos hzero]
      exact ⟨tree₁, hrun, hsame, fun _ herror => nomatch herror⟩
    · rw [if_neg hzero]
      have howns : OwnsPages s₁.pages kern s₁.space.pml4 tree₁ :=
        hsame.pml4 ▸ (hrun.confined h).owns
      obtain ⟨tree', hstack⟩ := allocateUserStack_run defaultUserStackTop
        defaultUserStackPages False howns fun j hj hlt => private_of_window (stack_page hj hlt)
      have hkept := allocateUserStack_sameSpace (s := s₁) defaultUserStackTop defaultUserStackPages
      rw [hsame.pml4] at hstack
      generalize s₁.allocateUserStack defaultUserStackTop defaultUserStackPages = done
        at hstack hkept ⊢
      obtain ⟨_ | _, s₂⟩ := done
      · exact ⟨tree', hrun.trans hstack, hsame.trans hkept, fun _ herror => nomatch herror⟩
      · refine ⟨tree', hrun.trans hstack, hsame.trans hkept, fun loaded hloaded => ?_⟩
        cases hloaded
        rfl

structure Spared (mem : Mem) (pmm : Pmm) (mem' : Mem) (pmm' : Pmm) : Prop where
  mem : ∀ t, ¬ pmm.FreeAt t → ∀ i, mem' t i = mem t i
  used : ∀ a, pmm.UsedAt a → pmm'.UsedAt a
  free : ∀ a, pmm'.FreeAt a → pmm.FreeAt a

theorem Spared.refl (mem : Mem) (pmm : Pmm) : Spared mem pmm mem pmm :=
  ⟨fun _ _ _ => rfl, fun _ => id, fun _ => id⟩

theorem Grown.spared {listed listed' added : List Nat}
    (h : Grown ⟨mem, pmm, listed⟩ ⟨mem', pmm', listed'⟩ .empty added) :
    Spared mem pmm mem' pmm' where
  mem := fun t ht => h.mem t (not_has_empty t) fun hmem => ht (h.fresh t hmem)
  used := fun a ha => (h.used a).mpr (.inl ha)
  free := fun a ha => ((h.free a).mp ha).1

structure FreshSpace (pmm : Pmm) (mem' : Mem) (pmm' : Pmm) (kern : KernelTables)
    (space : AddressSpace) (tree : TableTree) : Prop where
  owns : OwnsPages ⟨mem', pmm', space.allocatedFrames⟩ kern space.pml4 tree
  accounts : Accounts ⟨mem', pmm', space.allocatedFrames⟩ tree
  fresh : ∀ a ∈ space.allocatedFrames, pmm.FreeAt a
  heap : HeapBounds space

theorem Created.freshSpace (h : Created mem pmm kern kernelCr3 space mem' pmm' tree) :
    FreshSpace pmm mem' pmm' kern space tree :=
  ⟨h.owns, h.accounts, h.grown.fresh, h.heap⟩

theorem FreshSpace.run {mem₁ : Mem} {pmm₁ : Pmm} {tree' : TableTree}
    (hspared : Spared mem pmm mem₁ pmm₁) (hfresh : FreshSpace pmm mem₁ pmm₁ kern space tree)
    (hrun : PageRun kern space.pml4 False (⟨mem₁, pmm₁, space.allocatedFrames⟩, tree)
      (s.pages, tree')) (hsame : SameSpace space s.space) :
    Spared mem pmm s.mem s.pmm ∧ FreshSpace pmm s.mem s.pmm kern s.space tree' := by
  have hconfined := hrun.confined hfresh.owns
  obtain ⟨haccounts, haccounted⟩ := hrun.accounts hfresh.accounts
  have htree : ∀ a, tree.Has a → pmm.FreeAt a := fun a ha =>
    hfresh.fresh a (hfresh.accounts.has a ha)
  refine ⟨⟨?_, ?_, ?_⟩, ⟨hsame.pml4 ▸ hconfined.owns, haccounts, ?_, hsame.heapBounds hfresh.heap⟩⟩
  · intro t ht i
    rw [← hspared.mem t ht i]
    exact hconfined.mem t (fun hhas => ht (htree t hhas)) (fun hfree => ht (hspared.free t hfree)) i
  · intro a ha
    exact hconfined.used a (hspared.used a ha) fun hhas => ha.not_freeAt (htree a hhas)
  · intro a ha
    exact (hconfined.free a ha).elim (hspared.free a) (htree a)
  · intro a ha
    exact (haccounted.listed a ha).elim (hfresh.fresh a) (hspared.free a)

theorem FreshSpace.drop (hspared : Spared mem pmm mem' pmm')
    (hfresh : FreshSpace pmm mem' pmm' kern space tree) :
    Spared mem pmm mem' (space.drop pmm') where
  mem := hspared.mem
  used := fun a ha => (drop_spec space pmm' a).2.mpr
    ⟨hspared.used a ha, fun hmem => ha.not_freeAt (hfresh.fresh a hmem)⟩
  free := fun a ha => ((drop_spec space pmm' a).1.mp ha).elim (hspared.free a)
    fun hmem => hfresh.fresh a hmem.1

/-- The pages that loading the file maps are private as far as they are reached.  The
first two frames are for the tables of the new space. -/
def LoadFits (kern : KernelTables) (kernelCr3 : Nat) (mem : Mem) (pmm : Pmm)
    (data : List (BitVec 8)) : Prop :=
  ∀ elf phdrs, ElfBinary.parse data = .ok elf → elf.programHeaders = .ok phdrs →
    MapsPages kern True mem kernelCr3 [] (pmm.freeCount - 2) (loadPages elf.data phdrs)

theorem loadElf_spec (h : KernelRoot mem pmm kern kernelCr3) (data : List (BitVec 8))
    (stray : Nat → BitVec 8) (hguard : LoadFits kern kernelCr3 mem pmm data) :
    let r := loadElf kernelCr3 data stray mem pmm
    Spared mem pmm r.2.1 r.2.2 ∧ ∀ loaded, r.1 = .ok loaded →
      ∃ tree, FreshSpace pmm r.2.1 r.2.2 kern loaded.space tree := by
  simp only [loadElf]
  cases hparse : ElfBinary.parse data with
  | error e => exact ⟨Spared.refl mem pmm, fun _ herror => nomatch herror⟩
  | ok elf =>
    simp only
    cases hphdrs : elf.programHeaders with
    | error e => exact ⟨Spared.refl mem pmm, fun _ herror => nomatch herror⟩
    | ok phdrs =>
      rcases new_cases h with ⟨mem₁, pmm₁, leaked, hnew, hgrown, -⟩ |
        ⟨space, mem₁, pmm₁, tree, hnew, hcreated⟩
      · rw [hnew]
        exact ⟨hgrown.spared, fun _ herror => nomatch herror⟩
      · simp only [hnew]
        have hcount := hcreated.grown.count
        rw [hcreated.count] at hcount
        have hfree : pmm.freeCount - 2 = pmm₁.freeCount := by
          grind
        have hpages := hguard elf phdrs hparse hphdrs
        rw [hfree] at hpages
        obtain ⟨tree', hrun, hsame, hloaded⟩ := buildImage_run elf phdrs stray hcreated.shape
          (s := ⟨mem₁, pmm₁, space⟩) hcreated.owns (Advanced.refl tree) hpages
        generalize buildImage elf phdrs stray ⟨mem₁, pmm₁, space⟩ = result at hrun hsame hloaded ⊢
        obtain ⟨hspared, hfresh⟩ := FreshSpace.run hcreated.grown.spared hcreated.freshSpace
          hrun hsame
        obtain ⟨_ | loaded, s⟩ := result
        · exact ⟨hfresh.drop hspared, fun _ herror => nomatch herror⟩
        · refine ⟨hspared, fun loaded' heq => ⟨tree', ?_⟩⟩
          cases heq
          rw [hloaded loaded rfl]
          exact hfresh

end Loading

end AuraOS.UserSpace
