import AuraOS.GuardedRuns
import AuraOS.SpaceWorld

namespace AuraOS.UserSpace

open GuardedRuns PathTrees PhysicalFrames PageTables VirtualAreas Function

variable {virt level table id t : Nat} {mem mem' : Mem} {tr : Translation} {trees : Nat → TableTree}
  {pmm' : Pmm} {space : AddressSpace}

section Translation

variable {s : PageState} {kern : KernelTables} {root kernelCr3 : Nat} {tree : TableTree}

theorem isLeaf_top (entry : BitVec 64) : isLeaf 3 entry = false := by
  simp [isLeaf]

variable (h : OwnsPages s kern root tree)
include h

theorem walkTables_own (hpriv : kern.Private virt)
    (hlevel : level ≤ 3) (htable : tree.node ((path virt).take (3 - level)) = some table) :
    ∀ t ∈ walkTables s.mem virt level table, tree.Has t := by
  induction level generalizing table with
  | zero =>
    intro t ht
    rw [List.mem_singleton.mp ht]
    exact ⟨_, htable⟩
  | succ level ih =>
    intro t ht
    rcases List.mem_cons.mp ht with rfl | ht
    · exact ⟨_, htable⟩
    · split at ht
      · rename_i hnext
        rcases entry_above h hpriv hlevel htable with ⟨next, hchild, hentry, haddr⟩ | ⟨-, -, hentry⟩
        · rw [hentry, haddr] at ht
          exact ih (by omega) hchild t ht
        · rw [hentry] at hnext
          cases hnext
      · cases ht

omit h in
theorem present_of_not_private (h : ¬ kern.Private virt) :
    isPresent (kern.pml4 (tableIndex 3 virt)) = true ∧
      (tableIndex 3 virt = 0 → isPresent (kern.pdpt (tableIndex 2 virt)) = true) := by
  have hboth := not_or.mp (show ¬ (_ ∨ _) from h)
  refine ⟨Bool.not_eq_false _ ▸ hboth.1, fun hzero => ?_⟩
  by_contra habsent
  exact hboth.2 ⟨hzero, Bool.eq_false_iff.mpr habsent⟩

theorem exists_pdpt :
    ∃ pdpt, tree.node [0] = some pdpt ∧ s.mem root 0 = makeEntry pdpt tableFlags ∧
      entryAddr (makeEntry pdpt tableFlags) = pdpt := by
  obtain ⟨pdpt, hpdpt⟩ := Option.isSome_iff_exists.mp h.rep.pdpt
  have hentry := h.rep.entry [] root 0 h.rep.atRoot (by decide) (.inl rfl)
  rw [List.nil_append, hpdpt] at hentry
  exact ⟨pdpt, hpdpt, hentry, entryAddr_makeEntry (h.isFrame ⟨_, hpdpt⟩) tableFlags⟩

variable (hkernel : KernelRoot s.mem s.pmm kern kernelCr3)
include hkernel

omit h in
theorem walkTables_kernel (hpml4 : isPresent (kern.pml4 (tableIndex 3 virt)) = true) :
    walkTables s.mem virt 3 kernelCr3 =
      kernelCr3 :: walkTables s.mem virt 2 (entryAddr (kern.pml4 (tableIndex 3 virt))) := by
  rw [walkTables, hkernel.pml4]
  simp only [Nat.reduceAdd, hpml4, isLeaf_top, Bool.not_false, Bool.and_self, if_true]

theorem walkTables_space (virt : Nat) :
    ∀ t ∈ walkTables s.mem virt 3 root, tree.Has t ∨ t ∈ walkTables s.mem virt 3 kernelCr3 := by
  by_cases hpriv : kern.Private virt
  · exact fun t ht => .inl (walkTables_own h hpriv (Nat.le_refl 3) h.rep.atRoot t ht)
  · obtain ⟨hpml4, hpdpt⟩ := present_of_not_private hpriv
    intro t ht
    rcases List.mem_cons.mp ht with rfl | ht
    · exact .inl ⟨[], h.rep.atRoot⟩
    · have hkernelWalk := walkTables_kernel hkernel hpml4
      by_cases hzero : tableIndex 3 virt = 0
      · obtain ⟨pdpt, hnode, hentry, haddr⟩ := exists_pdpt h
        have hshared := h.rep.sharedPdpt pdpt (tableIndex 2 virt) hnode (hpdpt hzero)
        simp only [Nat.reduceAdd, hzero, hentry, isPresent_tableEntry, isLeaf_top, Bool.not_false,
          Bool.and_self, if_true, haddr] at ht
        rcases List.mem_cons.mp ht with rfl | ht
        · exact .inl ⟨[0], hnode⟩
        · right
          rw [hkernelWalk, hzero, walkTables, hkernel.pdpt]
          simp only [Nat.reduceAdd, hshared] at ht ⊢
          exact .tail _ (.tail _ ht)
      · have hshared := h.rep.sharedRoot (tableIndex 3 virt) hzero hpml4
        simp only [Nat.reduceAdd, hshared, hpml4, isLeaf_top, Bool.not_false, Bool.and_self,
          if_true] at ht
        right
        rw [hkernelWalk]
        exact .tail _ ht

omit h hkernel in
theorem walk_top (hpresent : isPresent (mem table (tableIndex 3 virt)) = true) :
    walk mem virt 3 table = (walk mem virt 2 (entryAddr (mem table (tableIndex 3 virt)))).map
      fun found => (found.1, mem table (tableIndex 3 virt) :: found.2) := by
  rw [walk]
  simp only [Nat.reduceAdd, hpresent, isLeaf_top, if_true, Bool.false_eq_true, if_false]

theorem translate_kernel_page (htr : translate s.mem kernelCr3 virt = some tr) :
    ∃ tr', translate s.mem root virt = some tr' ∧ tr'.frame = tr.frame ∧ tr'.user = false := by
  obtain ⟨found, hwalk, rfl⟩ := Option.map_eq_some_iff.mp htr
  have hpml4 : isPresent (kern.pml4 (tableIndex 3 virt)) = true := by
    by_contra habsent
    rw [walk, hkernel.pml4] at hwalk
    simp [habsent] at hwalk
  have hkernelEntry := congrFun hkernel.pml4 (tableIndex 3 virt)
  rw [walk_top (hkernelEntry ▸ hpml4), hkernelEntry] at hwalk
  obtain ⟨below, hbelow, rfl⟩ := Option.map_eq_some_iff.mp hwalk
  by_cases hzero : tableIndex 3 virt = 0
  · obtain ⟨pdpt, hnode, hentry, haddr⟩ := exists_pdpt h
    rw [hzero] at hbelow
    have hpdpt : isPresent (kern.pdpt (tableIndex 2 virt)) = true := by
      by_contra habsent
      rw [walk, hkernel.pdpt] at hbelow
      simp [habsent] at hbelow
    have hshared := h.rep.sharedPdpt pdpt (tableIndex 2 virt) hnode hpdpt
    -- from the PDPT on the two walks are the same, and its entry is for the supervisor
    have hsame : walk s.mem virt 2 pdpt = some below := by
      rw [← hbelow]
      refine walk_eq_of_entry ?_
      rw [hshared, hkernel.pdpt]
    have huser := walk_supervisor hsame (hshared ▸ kern.pdptSupervisor (tableIndex 2 virt))
    have hpresent : isPresent (s.mem root (tableIndex 3 virt)) = true := by
      rw [hzero, hentry]
      exact isPresent_tableEntry pdpt
    rw [PageTables.translate, walk_top hpresent, hzero, hentry, haddr, hsame]
    exact ⟨_, rfl, rfl, by simp [huser]⟩
  · have hshared := h.rep.sharedRoot (tableIndex 3 virt) hzero hpml4
    rw [PageTables.translate, walk_top (hshared ▸ hpml4), hshared, hbelow]
    exact ⟨_, rfl, rfl, by simp [kern.pml4Supervisor _ hzero]⟩

omit hkernel in
theorem supervisor_of_not_private (hpriv : ¬ kern.Private virt)
    (htr : translate s.mem root virt = some tr) : tr.user = false := by
  obtain ⟨hpml4, hpdpt⟩ := present_of_not_private hpriv
  obtain ⟨found, hwalk, rfl⟩ := Option.map_eq_some_iff.mp htr
  by_cases hzero : tableIndex 3 virt = 0
  · obtain ⟨pdpt, hnode, hentry, haddr⟩ := exists_pdpt h
    have hshared := h.rep.sharedPdpt pdpt (tableIndex 2 virt) hnode (hpdpt hzero)
    have hpresent : isPresent (s.mem root (tableIndex 3 virt)) = true := by
      rw [hzero, hentry]
      exact isPresent_tableEntry pdpt
    rw [walk_top hpresent, hzero, hentry, haddr] at hwalk
    obtain ⟨below, hbelow, rfl⟩ := Option.map_eq_some_iff.mp hwalk
    have huser := walk_supervisor hbelow (hshared ▸ kern.pdptSupervisor (tableIndex 2 virt))
    simp [huser]
  · have hshared := h.rep.sharedRoot (tableIndex 3 virt) hzero hpml4
    exact walk_supervisor hwalk (hshared ▸ kern.pml4Supervisor (tableIndex 3 virt) hzero)

end Translation

def WorldEvent.ring3 : WorldEvent → Bool
  | .new | .load _ _ => true
  | .perform _ (.mmap _ _ _ _) | .perform _ (.munmap _ _) | .perform _ (.brk _)
  | .perform _ (.fault _ _) => true
  | _ => false

def WorldEvent.target : WorldEvent → Option Nat
  | .perform id _ | .drop id => some id
  | _ => none

/-- The pages that the event maps, as far as it gets, or finds mapped and unmaps are
not covered by a kernel entry that the space shares. -/
def EventPrivate (kern : KernelTables) (kernelCr3 : Nat) (w : World) : WorldEvent → Prop
  | .load data _ => LoadFits kern kernelCr3 w.mem w.pmm data
  | .perform id op => ∀ space, w.spaces id = some space →
      OpFits kern True ⟨w.mem, w.pmm, space⟩ op
  | _ => True

structure StepIsolated (kernelCr3 : Nat) (boot w w' : World) (target : Option Nat) : Prop where
  kernel : ∀ virt, translate w'.mem kernelCr3 virt = translate w.mem kernelCr3 virt
  others : ∀ id space, w.spaces id = some space → target ≠ some id →
    w'.spaces id = some space ∧
      ∀ virt, translate w'.mem space.pml4 virt = translate w.mem space.pml4 virt
  supervisor : ∀ id space virt tr, w'.spaces id = some space →
    translate boot.mem kernelCr3 virt = some tr →
      ∃ tr', translate w'.mem space.pml4 virt = some tr' ∧ tr'.frame = tr.frame ∧ tr'.user = false

structure World.Boot (kern : KernelTables) (kernelCr3 : Nat) (w : World) : Prop where
  kernel : KernelRoot w.mem w.pmm kern kernelCr3
  tables : ∀ virt, ∀ t ∈ walkTables w.mem virt 3 kernelCr3, ¬ w.pmm.FreeAt t
  spaces : w.spaces = fun _ => none

section Isolation

variable {kern : KernelTables} {kernelCr3 : Nat} {boot w : World}

structure Separated (kern : KernelTables) (kernelCr3 : Nat) (boot w : World)
    (trees : Nat → TableTree) : Prop where
  ok : WorldOk kern kernelCr3 w trees fun id => (trees id).Has
  kernel : ∀ virt, translate w.mem kernelCr3 virt = translate boot.mem kernelCr3 virt

theorem World.Boot.worldOk {boot : World} (h : boot.Boot kern kernelCr3)
    (claims : Nat → Nat → Prop) : WorldOk kern kernelCr3 boot (fun _ => .empty) claims := by
  have hnone : ∀ id, boot.spaces id = none := fun id => congrFun h.spaces id
  refine ⟨h.kernel, fun virt t ht => ⟨h.tables virt t ht, fun id hid => absurd (hnone id) hid⟩,
    ?_, ?_, fun id a hid => absurd (hnone id) hid, fun id a hid => absurd (hnone id) hid,
    fun i j a _ hi => absurd (hnone i) hi, fun id _ => hnone id⟩
  all_goals
    intro id space hid
    rw [hnone id] at hid
    cases hid

theorem World.Boot.separated (h : boot.Boot kern kernelCr3) :
    Separated kern kernelCr3 boot boot fun _ => .empty :=
  ⟨h.worldOk _, fun _ => rfl⟩

variable (h : Separated kern kernelCr3 boot w trees)
include h

theorem Separated.stepIsolated {trees' : Nat → TableTree} (w' : World)
    (hwithin : Within (w.claimed (fun id => (trees id).Has) id) w.mem w.pmm w'.mem w'.pmm)
    (hspaces : ∀ j ≠ id, w.spaces j ≠ none → w'.spaces j = w.spaces j) (target : Option Nat)
    (htarget : ∀ j, target ≠ some j → w.spaces j ≠ none → j ≠ id)
    (hok : WorldOk kern kernelCr3 w' trees' fun id => (trees' id).Has) :
    StepIsolated kernelCr3 boot w w' target ∧ Separated kern kernelCr3 boot w' trees' := by
  have hkernel : ∀ virt, translate w'.mem kernelCr3 virt = translate w.mem kernelCr3 virt :=
    fun virt => translate_congr (h.ok.same_tables hwithin virt)
  have hboot : ∀ virt, translate w'.mem kernelCr3 virt = translate boot.mem kernelCr3 virt :=
    fun virt => (hkernel virt).trans (h.kernel virt)
  refine ⟨⟨hkernel, ?_, ?_⟩, hok, hboot⟩
  · intro j space hj hjtarget
    have hjlive : w.spaces j ≠ none := by simp [hj]
    have hjid := htarget j hjtarget hjlive
    refine ⟨(hspaces j hjid hjlive).trans hj, fun virt => translate_congr fun t ht => ?_⟩
    have howns := h.ok.owns j space hj
    rcases walkTables_space howns h.ok.kernel virt t ht with hown | hshared
    · exact hwithin.mem t (fun hclaim => h.ok.apart j id t hjid hjlive hclaim.1 hown hclaim.2)
        (howns.not_free hown)
    · exact h.ok.same_tables hwithin virt t hshared
  · intro j space virt tr hj htr
    rw [← hboot virt] at htr
    exact translate_kernel_page (hok.owns j space hj) hok.kernel htr

theorem Separated.spare (hspared : Spared w.mem w.pmm mem' pmm') :
    StepIsolated kernelCr3 boot w { w with mem := mem', pmm := pmm' } none ∧
      Separated kern kernelCr3 boot { w with mem := mem', pmm := pmm' } trees := by
  have hcount : w.spaces w.count = none := h.ok.fresh w.count le_rfl
  have hwithin : Within (w.claimed (fun id => (trees id).Has) w.count) w.mem w.pmm mem' pmm' :=
    ⟨fun t _ => hspared.mem t, fun a ha _ => hspared.used a ha,
      fun a ha => .inl (hspared.free a ha)⟩
  refine h.stepIsolated { w with mem := mem', pmm := pmm' } hwithin (fun _ _ _ => rfl) none
    (fun j _ hj heq => ?_) (h.ok.spare hspared)
  exact hj (heq ▸ hcount)

omit h in
theorem update_has (trees : Nat → TableTree) (id : Nat) (tree : TableTree) :
    update (fun id => (trees id).Has) id tree.Has = fun j => (update trees id tree j).Has := by
  funext j
  by_cases hj : j = id
  · rw [hj, update_self, update_self]
  · rw [update_of_ne hj, update_of_ne hj]

theorem Separated.add {tree : TableTree}
    (hspared : Spared w.mem w.pmm mem' pmm') (hfresh : FreshSpace w.pmm mem' pmm' kern space tree) :
    StepIsolated kernelCr3 boot w (w.add space mem' pmm') none ∧
      ∃ trees', Separated kern kernelCr3 boot (w.add space mem' pmm') trees' := by
  have hcount : w.spaces w.count = none := h.ok.fresh w.count le_rfl
  have hwithin : Within (w.claimed (fun id => (trees id).Has) w.count) w.mem w.pmm mem' pmm' :=
    ⟨fun t _ => hspared.mem t, fun a ha _ => hspared.used a ha,
      fun a ha => .inl (hspared.free a ha)⟩
  have hok := h.ok.set hwithin (some space) tree tree.Has
    (fun new hnew => by
      cases hnew
      exact ⟨hfresh.owns, hfresh.heap, fun _ => id, hfresh.owns.used,
        fun a ha => .inr (hfresh.fresh a (hfresh.accounts.has a ha))⟩)
    (Nat.le_succ w.count) (Nat.lt_succ_self w.count)
  rw [update_has] at hok
  obtain ⟨hstep, hsep⟩ := h.stepIsolated (w.add space mem' pmm') hwithin
    (fun j hj _ => update_of_ne hj _ _) none (fun j _ hj heq => hj (heq ▸ hcount)) hok
  exact ⟨hstep, _, hsep⟩

theorem Separated.perform (hspace : w.spaces id = some space) (op : SpaceOp)
    (hfits : OpFits kern True ⟨w.mem, w.pmm, space⟩ op) :
    StepIsolated kernelCr3 boot w (w.step kernelCr3 (.perform id op)) (some id) ∧
      ∃ trees', Separated kern kernelCr3 boot (w.step kernelCr3 (.perform id op)) trees' := by
  have hlive : w.spaces id ≠ none := by simp [hspace]
  obtain ⟨⟨tree', hrun⟩, hroot, hheap, -⟩ := perform_run (s := ⟨w.mem, w.pmm, space⟩)
    (h.ok.owns id space hspace) (h.ok.heap id space hspace) op hfits
  have hconfined := hrun.confined (h.ok.owns id space hspace)
  simp only [World.step, hspace]
  generalize SpaceState.perform ⟨w.mem, w.pmm, space⟩ op = s at hroot hheap hconfined ⊢
  have hwithin : Within (w.claimed (fun id => (trees id).Has) id) w.mem w.pmm s.mem s.pmm :=
    ⟨fun t ht => hconfined.mem t fun hhas => ht ⟨hlive, hhas⟩,
      fun a ha hnot => hconfined.used a ha fun hhas => hnot ⟨hlive, hhas⟩,
      fun a ha => (hconfined.free a ha).imp_right fun hhas => ⟨hlive, hhas⟩⟩
  have hid : id < w.count := by
    by_contra hge
    exact hlive (h.ok.fresh id (Nat.not_lt.mp hge))
  have hok := h.ok.set hwithin (some s.space) tree' tree'.Has
    (fun new hnew => by
      cases hnew
      exact ⟨hroot ▸ hconfined.owns, hheap, fun _ ha => ha, hconfined.owns.used,
        fun a ha => (hconfined.has a ha).imp_left fun hhas => ⟨hlive, hhas⟩⟩)
    (Nat.le_refl w.count) hid
  rw [update_has] at hok
  obtain ⟨hstep, hsep⟩ := h.stepIsolated
    ⟨s.mem, s.pmm, update w.spaces id (some s.space), w.count⟩ hwithin
    (fun j hj _ => update_of_ne hj _ _) (some id)
    (fun j hj _ heq => hj (heq ▸ rfl)) hok
  exact ⟨hstep, _, hsep⟩

theorem Separated.step (e : WorldEvent)
    (hring : e.ring3 = true) (hprivate : EventPrivate kern kernelCr3 w e) :
    StepIsolated kernelCr3 boot w (w.step kernelCr3 e) e.target ∧
      ∃ trees', Separated kern kernelCr3 boot (w.step kernelCr3 e) trees' := by
  cases e with
  | new =>
    simp only [World.step]
    rcases new_cases h.ok.kernel with ⟨mem', pmm', leaked, hnew, hgrown, -⟩ |
      ⟨space, mem', pmm', tree, hnew, hcreated⟩
    · rw [hnew]
      obtain ⟨hstep, hsep⟩ := h.spare hgrown.spared
      exact ⟨hstep, trees, hsep⟩
    · rw [hnew]
      exact h.add hcreated.grown.spared hcreated.freshSpace
  | load data stray =>
    obtain ⟨hspared, hloaded⟩ := loadElf_spec h.ok.kernel data stray hprivate
    simp only [World.step]
    generalize ElfLoader.loadElf kernelCr3 data stray w.mem w.pmm = result at hspared hloaded ⊢
    obtain ⟨_ | loaded, mem', pmm'⟩ := result
    · obtain ⟨hstep, hsep⟩ := h.spare hspared
      exact ⟨hstep, trees, hsep⟩
    · obtain ⟨tree, hfresh⟩ := hloaded loaded rfl
      exact h.add hspared hfresh
  | perform id op =>
    cases hspace : w.spaces id with
    | none =>
      have hsame : w.step kernelCr3 (.perform id op) = w := by
        simp only [World.step, hspace]
      rw [hsame]
      obtain ⟨hstep, hsep⟩ := h.spare (Spared.refl w.mem w.pmm)
      exact ⟨⟨hstep.kernel, fun j space hj _ => hstep.others j space hj nofun,
        hstep.supervisor⟩, trees, hsep⟩
    | some space => exact h.perform hspace op (hprivate space hspace)
  | drop id => cases hring

end Isolation

/-- In every run of calls whose pages are private, each step leaves the translations of
the kernel and of all other spaces as they were, and the kernel's pages stay where they
are in every space, for the supervisor only. -/
theorem isolated_of_private_run {kern : KernelTables} {kernelCr3 : Nat} {boot : World}
    (hboot : boot.Boot kern kernelCr3) (ops : List WorldEvent) (e : WorldEvent)
    (hring : ∀ op ∈ ops ++ [e], op.ring3 = true)
    (hrun : Guarded (World.step kernelCr3) (EventPrivate kern kernelCr3) boot (ops ++ [e])) :
    let w := ops.foldl (World.step kernelCr3) boot
    StepIsolated kernelCr3 boot w (w.step kernelCr3 e) e.target := by
  have hboth := guarded_concat.mp (guarded_and_of_forall_mem hring hrun)
  have hstep : ∀ w op, (∃ trees, Separated kern kernelCr3 boot w trees) →
      op.ring3 = true ∧ EventPrivate kern kernelCr3 w op →
      ∃ trees, Separated kern kernelCr3 boot (w.step kernelCr3 op) trees := by
    rintro w op ⟨trees, hsep⟩ ⟨hop, hprivate⟩
    exact (hsep.step op hop hprivate).2
  obtain ⟨trees, hsep⟩ := invariant_of_guarded hstep ⟨_, hboot.separated⟩ hboth.1
  exact (hsep.step e hboth.2.1 hboth.2.2).1

section Hardware

def hardwareWorld : World :=
  ⟨hardwareTables, ⟨fun _ => 0⟩, fun _ => none, 0⟩

theorem mem_walkTables (h : t ∈ walkTables mem virt (level + 1) table) :
    t = table ∨ isPresent (mem table (tableIndex (level + 1) virt)) = true ∧
      isLeaf (level + 1) (mem table (tableIndex (level + 1) virt)) = false ∧
      t ∈ walkTables mem virt level (entryAddr (mem table (tableIndex (level + 1) virt))) := by
  rcases List.mem_cons.mp h with h | h
  · exact .inl h
  · split at h
    · rename_i hnext
      rw [Bool.and_eq_true, Bool.not_eq_true'] at hnext
      exact .inr ⟨hnext.1, hnext.2, h⟩
    · cases h

theorem hardwareTables_pml4 : ∀ i, isPresent (hardwareTables 0x1000 i) = true →
    entryAddr (hardwareTables 0x1000 i) = 0x2000 := by
  decide +kernel

theorem hardwareTables_pdpt : ∀ i, isPresent (hardwareTables 0x2000 i) = true →
    isLeaf 2 (hardwareTables 0x2000 i) = false → entryAddr (hardwareTables 0x2000 i) = 0x3000 := by
  decide +kernel

theorem hardwareTables_pd : ∀ i, isPresent (hardwareTables 0x3000 i) = true →
    isLeaf 1 (hardwareTables 0x3000 i) = true := by
  decide +kernel

theorem walkTables_hardware (h : t ∈ walkTables hardwareTables virt 3 0x1000) : t < pmmBase := by
  rcases mem_walkTables h with rfl | ⟨hpresent, -, h⟩
  · decide
  · rw [hardwareTables_pml4 _ hpresent] at h
    rcases mem_walkTables h with rfl | ⟨hpresent, hleaf, h⟩
    · decide
    · rw [hardwareTables_pdpt _ hpresent hleaf] at h
      rcases mem_walkTables h with rfl | ⟨hpresent, hleaf, -⟩
      · decide
      · rw [hardwareTables_pd _ hpresent] at hleaf
        cases hleaf

theorem hardwareWorld_boot : hardwareWorld.Boot hardwareKernel 0x1000 :=
  ⟨hardwareKernel_root _, fun _ _ ht => not_freeAt_of_low (walkTables_hardware ht), rfl⟩

/-- A page of the `mmap` window, while another space is alive. -/
theorem isolated_in_mmap_window :
    let w := [WorldEvent.new, .new].foldl (World.step 0x1000) hardwareWorld
    StepIsolated 0x1000 hardwareWorld w
      (w.step 0x1000 (.perform 0 (.mmap none 0x1000 protRead mapPopulate))) (some 0) := by
  refine isolated_of_private_run hardwareWorld_boot [.new, .new]
    (.perform 0 (.mmap none 0x1000 protRead mapPopulate)) (by decide)
      ⟨trivial, trivial, ?_, trivial⟩
  have hrun : ((([WorldEvent.new, .new].foldl (World.step 0x1000) hardwareWorld).spaces 0).map
      fun space => (space.chooseRange none 0x1000 mapPopulate).toOption.map Prod.fst) =
        some (some 0x60000000) := by
    decide +kernel
  intro space hspace
  refine opFits_of_inWindow fun _ vaddr space' hchoose => ?_
  have hlen : alignUpPage 0x1000 = 0x1000 := by decide
  simp only [hlen] at hchoose ⊢
  have hspace' : ([WorldEvent.new, .new].foldl (World.step 0x1000) hardwareWorld).spaces 0 =
      some space := hspace
  simp only [hspace', Option.map_some, Option.some.injEq, hchoose, Except.toOption] at hrun
  subst hrun
  exact ⟨by decide, by decide⟩

/-- `MAP_FIXED` behind the kernel's identity map puts a page table into the page
directory that the kernel and all spaces share: the kernel now translates a page that
it did not. -/
theorem mmap_into_shared_directory :
    let w := [WorldEvent.new, .new].foldl (World.step 0x1000) hardwareWorld
    ¬ StepIsolated 0x1000 hardwareWorld w
      (w.step 0x1000 (.perform 0 (.mmap (some 0x20000000) 0x1000 protRead
        (mapFixed ||| mapPopulate)))) (some 0) := by
  intro w h
  have hchanged : ((translate w.mem 0x1000 0x20000000).isSome,
      (translate (w.step 0x1000 (.perform 0 (.mmap (some 0x20000000) 0x1000 protRead
        (mapFixed ||| mapPopulate)))).mem 0x1000 0x20000000).isSome) = (false, true) := by
    decide +kernel
  rw [h.kernel, Prod.mk.injEq] at hchanged
  rw [hchanged.1] at hchanged
  cases hchanged.2

end Hardware

end AuraOS.UserSpace
