import AuraOS.PageTranslations
import AuraOS.SpacePages

namespace AuraOS.UserSpace

open GuardedRuns PathTrees PhysicalFrames PageTables VirtualAreas

variable {mem : Mem} {area : VmArea}

section Zeroed

variable {s : PageState} {kern : KernelTables} {root kernelCr3 virt : Nat} {tree : TableTree}

theorem SameTranslation.trans {mem₁ mem₂ : Mem} (h : SameTranslation mem mem₁ root virt)
    (h₁ : SameTranslation mem₁ mem₂ root virt) : SameTranslation mem mem₂ root virt :=
  ⟨h₁.1.trans h.1, h₁.2.trans h.2⟩

theorem walk_of_unchanged (h : OwnsPages s kern root tree)
    (hapart : KernelApart s kern kernelCr3 tree)
    (hmem : ∀ t, ¬ s.pmm.FreeAt t → ∀ i, mem t i = s.mem t i) (w : Nat) :
    walk mem w 3 root = walk s.mem w 3 root := by
  have htree : ∀ q t, tree.node q = some t → ∀ i, mem t i = s.mem t i := fun q t ht =>
    hmem t (h.not_free ⟨q, ht⟩)
  by_cases hw : kern.Private w
  · obtain ⟨upper, -, -, hwalk⟩ := walk_along h hw (Nat.le_refl 3) h.rep.atRoot
    rw [hwalk mem fun _ _ _ t ht => htree _ t ht _, hwalk s.mem fun _ _ _ _ _ => rfl]
    cases hleaf : tree.node ((path w).take 3) with
    | none => rfl
    | some leaf => rw [Option.bind_some, Option.bind_some, htree _ leaf hleaf]
  · apply walk_shared h hapart.root hw
    · exact htree [] root h.rep.atRoot _
    · exact fun _ pdpt hnode => htree [0] pdpt hnode _
    · exact fun t ht => hmem t (hapart.tables w t ht).1

theorem mapZeroed_translations {s : SpaceState} (h : OwnsPages s.pages kern s.space.pml4 tree)
    (hapart : KernelApart s.pages kern kernelCr3 tree) (hlow : 0x40000000 ≤ virt)
    (hhigh : virt < 0xC0000000) {writable ok : Bool} {phys : Nat} {after : PageState}
    (hmap : s.MapsZeroed virt writable ok phys after) :
    (ok = true → MapsPage s.mem after.mem s.space.pml4 virt phys writable) ∧
      (ok = false → ∀ w, SameTranslation s.mem after.mem s.space.pml4 w) := by
  obtain ⟨pmm, halloc, hmap⟩ := hmap
  have hspec := allocFrame_spec halloc
  have hmem : ∀ t ≠ phys, ∀ i, (s.pages.zeroed phys pmm).mem t i = s.mem t i :=
    fun t ht _ => if_neg ht
  have hgrown : Grown s.pages (s.pages.zeroed phys pmm) tree [phys] :=
    grown_of_allocated hspec fun t _ hne => hmem t hne
  have hzeroed : OwnsPages (s.pages.zeroed phys pmm) kern s.space.pml4 tree :=
    h.grow hgrown fun t ht => hmem t fun heq => h.not_free (heq ▸ ht) hspec.free
  have hsame : ∀ w, SameTranslation s.mem (s.pages.zeroed phys pmm).mem s.space.pml4 w := fun w =>
    sameTranslation_of_walk (walk_of_unchanged h hapart (fun t ht => hmem t fun heq =>
      ht (heq ▸ hspec.free)) w)
  have htranslations := mapUserPage_translations hzeroed
    (hapart.confined (hgrown.confined hzeroed fun _ hb => .inl hb)) hlow hhigh
    (isFrame_of_freeAt hspec.free) writable
  rw [hmap] at htranslations
  refine ⟨fun hok => ?_, fun hno w => (hsame w).trans (htranslations.2 hno w)⟩
  have h := htranslations.1 hok
  exact ⟨h.address, h.access, fun w hw => (hsame w).trans (h.others w hw)⟩

end Zeroed

section Handler

variable {s : SpaceState} {addr : Nat} {isWrite : Bool}

def AreaAdmits (area : VmArea) (isWrite : Bool) : Prop :=
  area.isGuardPage = false ∧ area.prot ≠ protNone ∧ (isWrite = true → area.isWritable = true)

def DisjointAreas (vmas : List VmArea) : Prop :=
  vmas.Pairwise fun a b => ∀ x, ¬ (a.contains x = true ∧ b.contains x = true)

theorem DisjointAreas.find_eq {vmas : List VmArea} (h : DisjointAreas vmas) (harea : area ∈ vmas)
    (hcontains : area.contains addr = true) : vmas.find? (·.contains addr) = some area := by
  induction vmas with
  | nil => cases harea
  | cons first rest ih =>
    obtain ⟨hfirst, hrest⟩ := List.pairwise_cons.mp h
    rcases List.mem_cons.mp harea with rfl | harea
    · exact List.find?_cons_of_pos hcontains
    · have hnot : ¬ first.contains addr = true := fun hin =>
        hfirst area harea addr ⟨hin, hcontains⟩
      rw [List.find?_cons_of_neg (p := fun a : VmArea => a.contains addr) hnot]
      exact ih hrest harea

structure PageResolved (s s' : SpaceState) (addr idx : Nat) (area : VmArea) (phys : Nat) :
    Prop where
  position : s.space.vmas[idx]? = some area
  contains : area.contains addr = true
  fresh : s.pmm.FreeAt phys
  zero : ∀ i, s'.mem phys i = 0
  page : MapsPage s.mem s'.mem s.space.pml4 (alignDownPage addr) phys area.isWritable
  vmas : s'.space.vmas = s.space.vmas.set idx (area.insertPage (alignDownPage addr) phys)

structure FaultOutcome (s : SpaceState) (addr : Nat) (isWrite : Bool) : Prop where
  nowhere : (∀ area ∈ s.space.vmas, area.contains addr = false) →
    (s.handleDemandFault addr isWrite).1 = false
  refused : ∀ area ∈ s.space.vmas, area.contains addr = true → ¬ AreaAdmits area isWrite →
    (s.handleDemandFault addr isWrite).1 = false
  accepted : ∀ area ∈ s.space.vmas, area.contains addr = true → AreaAdmits area isWrite →
    framesNeeded s.mem s.space.pml4 (alignDownPage addr) [] ≤ s.pmm.freeCount →
      (s.handleDemandFault addr isWrite).1 = true
  root : (s.handleDemandFault addr isWrite).2.space.pml4 = s.space.pml4
  resolved : (s.handleDemandFault addr isWrite).1 = true →
    ∃ idx area phys, PageResolved s (s.handleDemandFault addr isWrite).2 addr idx area phys
  unresolved : (s.handleDemandFault addr isWrite).1 = false →
    (s.handleDemandFault addr isWrite).2.space.vmas = s.space.vmas ∧
      ∀ w, SameTranslation s.mem (s.handleDemandFault addr isWrite).2.mem s.space.pml4 w

theorem DisjointAreas.admits (h : DisjointAreas s.space.vmas) (harea : area ∈ s.space.vmas)
    (hcontains : area.contains addr = true) :
    Admits s.space.vmas addr isWrite area ↔ AreaAdmits area isWrite := by
  rw [Admits, h.find_eq harea hcontains]
  exact and_iff_right rfl

variable {kern : KernelTables} {kernelCr3 : Nat} {tree : TableTree}

theorem fault_outcome (howns : OwnsPages s.pages kern s.space.pml4 tree)
    (hapart : KernelApart s.pages kern kernelCr3 tree) (hwindow : InWindow addr 1)
    (h : DisjointAreas s.space.vmas) (isWrite : Bool) : FaultOutcome s addr isWrite := by
  obtain ⟨hlow, hhigh⟩ : 0x40000000 ≤ alignDownPage addr ∧ alignDownPage addr < 0xC0000000 := by
    grind
  have hpriv : kern.Private (alignDownPage addr) := private_of_window ⟨hlow, hhigh⟩
  -- the fields of an outcome in which the fault is not resolved
  have hfalse : ∀ {s' : SpaceState}, s.handleDemandFault addr isWrite = (false, s') →
      s'.space.pml4 = s.space.pml4 → s'.space.vmas = s.space.vmas →
      (∀ w, SameTranslation s.mem s'.mem s.space.pml4 w) →
      (∀ area, Admits s.space.vmas addr isWrite area →
        ¬ framesNeeded s.mem s.space.pml4 (alignDownPage addr) [] ≤ s.pmm.freeCount) →
      FaultOutcome s addr isWrite := by
    intro s' heq hroot hvmas hsame hshort
    refine ⟨fun _ => ?_, fun _ _ _ _ => ?_, fun area harea hcontains hadmits hframes => ?_, ?_,
      ?_, ?_⟩ <;> rw [heq]
    · exact absurd hframes (hshort area ((h.admits harea hcontains).mpr hadmits))
    · exact hroot
    · rintro ⟨⟩
    · exact fun _ => ⟨hvmas, hsame⟩
  have heffect := handleDemandFault_effect s addr isWrite
  generalize hresult : s.handleDemandFault addr isWrite = result at heffect
  cases heffect with
  | refused hnone =>
    exact hfalse hresult rfl rfl (fun _ => ⟨rfl, rfl⟩) fun area hadmits =>
      absurd hadmits (hnone area)
  | full halloc =>
    refine hfalse hresult rfl rfl (fun _ => ⟨rfl, rfl⟩) fun _ _ hframes => ?_
    rw [freeCount_eq_zero halloc, framesNeeded] at hframes
    omega
  | failed _ hmap =>
    obtain ⟨tree', tables, hattempt⟩ := populate_attempt howns hpriv hmap
    have hshort := not_framesNeeded_le howns.shape (Advanced.refl tree) hpriv hattempt
    exact hfalse hresult rfl rfl ((mapZeroed_translations howns hapart hlow hhigh hmap).2 rfl)
      fun _ _ => hshort
  | @mapped idx area phys after hadmits hget hmap =>
    have hcontains : area.contains addr = true := by
      simpa using List.find?_some hadmits.1
    have harea := List.mem_of_find?_eq_some hadmits.1
    obtain ⟨hframe, hset⟩ := (mapZeroed_pages howns hpriv hmap).1 rfl
    have hpage := hset.contents (alignDownPage addr) hpriv _
      (hset.entries _ hpriv |>.trans (if_pos rfl))
    rw [entryAddr_makeEntry hframe] at hpage
    obtain ⟨tree', tables, hattempt⟩ := populate_attempt howns hpriv hmap
    refine ⟨fun hnone => ?_, fun other hother hin hnot => ?_, fun _ _ _ _ _ => ?_, ?_,
      fun _ => ?_, ?_⟩ <;> rw [hresult]
    · rw [hnone area harea] at hcontains
      cases hcontains
    · cases (h.find_eq hother hin).symm.trans hadmits.1
      exact absurd hadmits.2 hnot
    · rfl
    · exact ⟨idx, area, phys, hget, hcontains, hattempt.grown.fresh phys (.head _),
        fun i => (hpage i).trans (if_pos rfl),
        (mapZeroed_translations howns hapart hlow hhigh hmap).1 rfl, rfl⟩
    · rintro ⟨⟩

end Handler

/-- In every state of a new space that calls in its window lead to, if its areas are
disjoint, a demand fault is refused outside of the areas that admit it, and is resolved
inside if there are frames enough; then one zeroed page is mapped and recorded, and
otherwise nothing is. -/
theorem demand_fault_correct (kern : KernelTables) {kernelCr3 : Nat} {mem mem' : Mem}
    {pmm pmm' : Pmm} {space : AddressSpace} (hroot : KernelRoot mem pmm kern kernelCr3)
    (htables : ∀ virt, ∀ t ∈ walkTables mem virt 3 kernelCr3, ¬ pmm.FreeAt t)
    (hnew : AddressSpace.new kernelCr3 mem pmm = (some space, mem', pmm')) (ops : List SpaceOp)
    (hops : Guarded SpaceState.perform OpInWindow ⟨mem', pmm', space⟩ ops)
    (hdisjoint : DisjointAreas (ops.foldl SpaceState.perform ⟨mem', pmm', space⟩).space.vmas)
    {addr : Nat} (hwindow : InWindow addr 1) (isWrite : Bool) :
    FaultOutcome (ops.foldl SpaceState.perform ⟨mem', pmm', space⟩) addr isWrite := by
  have hspace : SpaceApart kern kernelCr3 (ops.foldl SpaceState.perform ⟨mem', pmm', space⟩) :=
    invariant_of_guarded (fun s op h hop => h.perform op hop) (spaceApart_new hroot htables hnew)
      hops
  obtain ⟨tree, howns, hapart⟩ := hspace.exists_tree
  exact fault_outcome howns hapart hwindow hdisjoint isWrite

/-- A write to a page of a new lazy area. -/
theorem demand_fault_first_write :
    ∃ space mem' pmm', AddressSpace.new 0x1000 hardwareTables (fewFrames 8) =
        (some space, mem', pmm') ∧
      let s := [SpaceOp.mmap none 0x1000 protWrite 0].foldl SpaceState.perform ⟨mem', pmm', space⟩
      (s.handleDemandFault 0x60000123 true).1 = true ∧
        ∃ idx area phys, PageResolved s (s.handleDemandFault 0x60000123 true).2 0x60000123 idx area
          phys := by
  obtain ⟨space, mem', pmm', hnew, hchosen, hvmas, hresolved⟩ := exists_new (n := 8)
    (P := fun s => (s.space.chooseRange none (alignUpPage 0x1000) 0).toOption.map Prod.fst =
      some 0x60000000 ∧ ([SpaceOp.mmap none 0x1000 protWrite 0].foldl SpaceState.perform
        s).space.vmas = [VmArea.new 0x60000000 0x1000 protWrite 0 false .mmap] ∧
      (([SpaceOp.mmap none 0x1000 protWrite 0].foldl SpaceState.perform s).handleDemandFault
        0x60000123 true).1 = true) (by decide +kernel)
  have hops : Guarded SpaceState.perform OpInWindow ⟨mem', pmm', space⟩
      [SpaceOp.mmap none 0x1000 protWrite 0] :=
    ⟨fun _ _ _ => inWindow_of_chosen hchosen ⟨by decide, by decide⟩, trivial⟩
  have hdisjoint : DisjointAreas ([SpaceOp.mmap none 0x1000 protWrite 0].foldl SpaceState.perform
      ⟨mem', pmm', space⟩).space.vmas := by
    rw [hvmas]
    exact List.pairwise_singleton _ _
  have hlow : ∀ virt, ∀ t ∈ walkTables hardwareTables virt 3 0x1000, ¬ (fewFrames 8).FreeAt t :=
    fun _ _ ht => not_freeAt_of_low (walkTables_hardware ht)
  have hwindow : InWindow 0x60000123 1 := ⟨by decide, by decide⟩
  have houtcome := demand_fault_correct hardwareKernel (hardwareKernel_root _) hlow hnew _ hops
    hdisjoint hwindow true
  exact ⟨space, mem', pmm', hnew, hresolved, houtcome.resolved hresolved⟩

end AuraOS.UserSpace
