import AuraOS.PageTranslations
import AuraOS.PopulatedPages

namespace AuraOS.UserSpace

open GuardedRuns PathTrees PhysicalFrames PageTables VirtualAreas

def FewerFree (pmm pmm' : Pmm) : Prop :=
  ∀ a, pmm'.FreeAt a → pmm.FreeAt a

theorem FewerFree.used {pmm pmm' : Pmm} (h : FewerFree pmm pmm') {a : Nat} (hused : pmm.UsedAt a) :
    pmm'.UsedAt a := by
  obtain ⟨frame, hframe, rfl, hbit⟩ := id hused
  refine ⟨frame, hframe, rfl, ?_⟩
  cases hfree : pmm'.isUsed frame with
  | true => rfl
  | false => exact absurd (h _ ⟨frame, hframe, rfl, hfree⟩) hused.not_freeAt

theorem OwnsPages.fewerFree {s : PageState} {kern : KernelTables} {root : Nat} {tree : TableTree}
    (h : OwnsPages s kern root tree) {pmm : Pmm} (hfewer : FewerFree s.pmm pmm) :
    OwnsPages { s with pmm := pmm } kern root tree :=
  ⟨h.rep, fun a ha => hfewer.used (h.used a ha)⟩

section Calls

variable {kern : KernelTables} {s : SpaceState}

def SpaceState.setPmm (s : SpaceState) (pmm : Pmm) : SpaceState :=
  { s with pmm := pmm }

theorem PlacedSpace.fewerFree (h : PlacedSpace kern s) {pmm : Pmm} (hfewer : FewerFree s.pmm pmm) :
    PlacedSpace kern (s.setPmm pmm) := by
  obtain ⟨tree, howns⟩ := h.owns
  exact ⟨⟨tree, howns.fewerFree hfewer⟩, h.bounds, h.areas, h.covered⟩

theorem mmap_error_pages (h : PlacedSpace kern s) {addrHint : Option Nat} {length : Nat}
    {prot flags : BitVec 32} (hop : MemoryCall s (.mmap addrHint length prot flags)) {e : VmmError}
    (herror : (s.mmap addrHint length prot flags).1 = .error e) :
    (s.mmap addrHint length prot flags).2.space.vmas = s.space.vmas ∧
      ∀ w, kern.Private w → w < 2 ^ 48 →
        SameTranslation s.mem (s.mmap addrHint length prot flags).2.mem s.space.pml4 w := by
  rcases mmap_cases h prot flags hop with ⟨hvmas, hpages⟩ | ⟨vaddr, area, hok, -⟩
  · obtain ⟨tree, howns⟩ := h.owns
    obtain ⟨tree', howns'⟩ := (mmap_placed h prot flags hop).owns
    rw [(mmap_sameSpace s addrHint length prot flags).pml4] at howns'
    exact ⟨hvmas, fun w hw hlow => sameTranslation_of_pte howns howns' hw (hpages w hw hlow)⟩
  · rw [hok] at herror
    cases herror

end Calls

/-- In every state that calls on a new space lead to, with any of the free frames taken by
others, a call of `mmap` that fails leaves the areas and all pages as they were. -/
theorem mmap_rolls_back {kern : KernelTables} {kernelCr3 : Nat} {mem mem' : Mem} {pmm pmm' : Pmm}
    {space : AddressSpace} (hroot : KernelRoot mem pmm kern kernelCr3)
    (hnew : AddressSpace.new kernelCr3 mem pmm = (some space, mem', pmm')) {ops : List SpaceOp}
    (hops : Guarded SpaceState.perform MemoryCall ⟨mem', pmm', space⟩ ops) {left : Pmm}
    (hleft : FewerFree (ops.foldl SpaceState.perform ⟨mem', pmm', space⟩).pmm left)
    {addrHint : Option Nat} {length : Nat} {prot flags : BitVec 32} {e : VmmError} :
    let s := (ops.foldl SpaceState.perform ⟨mem', pmm', space⟩).setPmm left
    MemoryCall s (.mmap addrHint length prot flags) →
      (s.mmap addrHint length prot flags).1 = .error e →
      (s.mmap addrHint length prot flags).2.space.vmas = s.space.vmas ∧
        (s.mmap addrHint length prot flags).2.space.pml4 = s.space.pml4 ∧
        ∀ w, kern.Private w → w < 2 ^ 48 →
          SameTranslation s.mem (s.mmap addrHint length prot flags).2.mem s.space.pml4 w := by
  intro s hop herror
  have hreached : PlacedSpace kern (ops.foldl SpaceState.perform ⟨mem', pmm', space⟩) :=
    invariant_of_guarded (fun _ _ h hop => placed_perform h hop) (placed_new hroot hnew).1 hops
  obtain ⟨hvmas, hpages⟩ := mmap_error_pages (hreached.fewerFree hleft) hop herror
  exact ⟨hvmas, (mmap_sameSpace s addrHint length prot flags).pml4, hpages⟩

/-- Five frames: two for the space, and for the first of two pages one, with two tables.  The
second page fails, and the first is unmapped again. -/
theorem mmap_rolls_back_second_page :
    ∃ space mem' pmm', AddressSpace.new 0x1000 hardwareTables (fewFrames 5) =
        (some space, mem', pmm') ∧
      let s : SpaceState := ⟨mem', pmm', space⟩
      (s.mmap none 0x2000 protWrite mapPopulate).1 = .error .outOfMemory ∧
        (s.mmap none 0x2000 protWrite mapPopulate).2.space.vmas = s.space.vmas ∧
        SameTranslation s.mem (s.mmap none 0x2000 protWrite mapPopulate).2.mem s.space.pml4
          0x60000000 := by
  obtain ⟨space, mem', pmm', hnew, hchosen, herror⟩ := exists_new (n := 5)
    (P := fun s => (s.space.chooseRange none (alignUpPage 0x2000) mapPopulate).toOption.map
      Prod.fst = some 0x60000000 ∧ (s.mmap none 0x2000 protWrite mapPopulate).1 =
        .error .outOfMemory) (by decide +kernel)
  have hop : MemoryCall ⟨mem', pmm', space⟩ (.mmap none 0x2000 protWrite mapPopulate) :=
    fun _ _ _ => inWindow_of_chosen hchosen ⟨by decide, by decide⟩
  have hnone : Guarded SpaceState.perform MemoryCall ⟨mem', pmm', space⟩ [] := trivial
  have hrolled := mmap_rolls_back (hardwareKernel_root _) hnew hnone (fun _ ha => ha) hop herror
  dsimp only [List.foldl_nil, SpaceState.setPmm] at hrolled
  refine ⟨space, mem', pmm', hnew, ?_⟩
  exact ⟨herror, hrolled.1, hrolled.2.2 _ (private_of_window ⟨by decide, by decide⟩) (by decide)⟩

end AuraOS.UserSpace
