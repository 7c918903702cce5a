import AuraOS.GuardedRuns
import AuraOS.SpaceWorld

namespace AuraOS.UserSpace

open GuardedRuns PathTrees PhysicalFrames PageTables VirtualAreas

variable {pmm : Pmm} {space : AddressSpace} {mem : Mem}

section Held

structure Held (pmm₀ : Pmm) (s : PageState) (tree : TableTree) : Prop where
  listed : ∀ a ∈ s.allocatedFrames, pmm₀.FreeAt a
  has : ∀ a, tree.Has a → pmm₀.FreeAt a
  free : ∀ a, s.pmm.FreeAt a → pmm₀.FreeAt a
  held : ∀ a, pmm₀.FreeAt a → s.pmm.FreeAt a ∨ a ∈ s.allocatedFrames

theorem held_start (mem : Mem) (pmm : Pmm) : Held pmm ⟨mem, pmm, []⟩ .empty :=
  ⟨by simp, fun a ha => absurd ha (not_has_empty a), fun _ ha => ha, fun _ ha => .inl ha⟩

variable {pmm₀ : Pmm} {s s' : PageState} {tree tree' : TableTree} {kern : KernelTables}
  {root : Nat}

theorem Grown.held {added : List Nat} (hgrown : Grown s s' tree added) (h : Held pmm₀ s tree)
    (hhas : ∀ a, tree'.Has a → tree.Has a ∨ a ∈ added) : Held pmm₀ s' tree' where
  listed := by
    intro a ha
    rw [hgrown.listed, List.mem_append] at ha
    exact ha.elim (h.listed a) fun ha => h.free a (hgrown.fresh a ha)
  has := fun a ha => (hhas a ha).elim (h.has a) fun ha => h.free a (hgrown.fresh a ha)
  free := fun a ha => h.free a ((hgrown.free a).mp ha).1
  held := by
    intro a ha
    rw [hgrown.listed, List.mem_append]
    by_cases hadded : a ∈ added
    · exact .inr (.inr hadded)
    · exact (h.held a ha).imp (fun hfree => (hgrown.free a).mpr ⟨hfree, hadded⟩) .inl

theorem Held.freeFrame (h : Held pmm₀ s tree) {phys : Nat} (hphys : phys ∈ s.allocatedFrames) :
    Held pmm₀ { s with pmm := (s.pmm.freeFrame phys).2 } tree where
  listed := h.listed
  has := h.has
  free := by
    intro a ha
    rcases ((freeFrame_spec s.pmm phys).free_iff a).mp ha with ha | ⟨rfl, -⟩
    · exact h.free a ha
    · exact h.listed a hphys
  held := fun a ha => (h.held a ha).imp_left fun hfree =>
    ((freeFrame_spec s.pmm phys).free_iff a).mpr (.inl hfree)

theorem Shrunk.held {removed : List Nat} (hshrunk : Shrunk s s' kern root tree tree' removed)
    (h : Held pmm₀ s tree) : Held pmm₀ s' tree' where
  listed := fun a ha => h.listed a (List.diff_subset _ _ (hshrunk.listed ▸ ha))
  has := fun a ha => h.has a ((hshrunk.has a).mp ha).1
  free := fun a ha => ((hshrunk.free a).mp ha).elim (h.free a) fun hmem =>
    h.has a (hshrunk.was a hmem)
  held := by
    intro a ha
    by_cases hremoved : a ∈ removed
    · exact .inl ((hshrunk.free a).mpr (.inr hremoved))
    · rw [hshrunk.listed]
      exact (h.held a ha).imp (fun hfree => (hshrunk.free a).mpr (.inl hfree))
        fun hmem => List.mem_diff_of_mem hmem hremoved

theorem PageRun.held {gaps : Prop} {a b : PageState × TableTree} (hrun : PageRun kern root gaps a b)
    (h : Held pmm₀ a.1 a.2) : Held pmm₀ b.1 b.2 := by
  induction hrun with
  | refl => exact h
  | tail _ hstep ih =>
    cases hstep with
    | attempt hmap => exact hmap.grown.held ih hmap.has
    | takeBack _ hmap =>
      refine (hmap.grown.held ih hmap.has).freeFrame ?_
      rw [hmap.grown.listed]
      exact List.mem_append_right _ (.head _)
    | store _ _ _ => exact ⟨ih.listed, ih.has, ih.free, ih.held⟩
    | unmap hshrunk => exact hshrunk.held ih

theorem freeAt_or_usedAt {a : Nat} (h : pmm₀.FreeAt a) : pmm.FreeAt a ∨ pmm.UsedAt a := by
  obtain ⟨frame, hframe, rfl, -⟩ := h
  cases hused : pmm.isUsed frame with
  | false => exact .inl ⟨frame, hframe, rfl, hused⟩
  | true => exact .inr ⟨frame, hframe, rfl, hused⟩

theorem Held.drop (h : Held pmm₀ ⟨mem, pmm, space.allocatedFrames⟩ tree) (a : Nat) :
    (space.drop pmm).FreeAt a ↔ pmm₀.FreeAt a := by
  rw [(drop_spec space pmm a).1]
  constructor
  · rintro (hfree | ⟨hmem, -⟩)
    · exact h.free a hfree
    · exact h.listed a hmem
  · intro ha
    rcases h.held a ha with hfree | hmem
    · exact .inl hfree
    · exact (freeAt_or_usedAt ha).imp id fun hused => ⟨hmem, hused⟩

structure SpaceHeld (kern : KernelTables) (pmm₀ : Pmm) (s : SpaceState) : Prop where
  heap : HeapBounds s.space
  exists_tree : ∃ tree, OwnsPages s.pages kern s.space.pml4 tree ∧ Held pmm₀ s.pages tree

theorem SpaceHeld.perform {s : SpaceState} (h : SpaceHeld kern pmm₀ s) (op : SpaceOp)
    (hop : OpInWindow s op) : SpaceHeld kern pmm₀ (s.perform op) := by
  obtain ⟨tree, howns, hheld⟩ := h.exists_tree
  obtain ⟨⟨tree', hrun⟩, hroot, hheap, -⟩ := perform_run howns h.heap op (opFits_of_inWindow hop)
  exact ⟨hheap, tree', hroot ▸ (hrun.confined howns).owns, hrun.held hheld⟩

theorem Created.spaceHeld {kernelCr3 : Nat} {mem' : Mem} {pmm' : Pmm}
    (h : Created mem pmm₀ kern kernelCr3 space mem' pmm' tree) :
    SpaceHeld kern pmm₀ ⟨mem', pmm', space⟩ :=
  ⟨h.heap, tree, h.owns, h.grown.held (held_start mem pmm₀) fun a ha => .inr ((h.has a).mp ha)⟩

end Held

def SpaceState.dropped (s : SpaceState) : Pmm :=
  s.space.drop s.pmm

/-- Whatever calls a space makes in its window, also ones that run out of frames, its
drop restores the free frames from before it was made. -/
theorem drop_restores_free_frames (kern : KernelTables) {kernelCr3 : Nat} {mem mem' : Mem}
    {pmm pmm' : Pmm} {space : AddressSpace} (hkernel : KernelRoot mem pmm kern kernelCr3)
    (hnew : AddressSpace.new kernelCr3 mem pmm = (some space, mem', pmm')) (ops : List SpaceOp)
    (hops : Guarded SpaceState.perform OpInWindow ⟨mem', pmm', space⟩ ops) (a : Nat) :
    (ops.foldl SpaceState.perform ⟨mem', pmm', space⟩).dropped.FreeAt a ↔ pmm.FreeAt a := by
  rcases new_cases hkernel with ⟨_, _, _, hnone, -⟩ | ⟨space₁, mem₁, pmm₁, tree, hsome, hcreated⟩
  · rw [hnone] at hnew
    cases hnew
  · rw [hsome] at hnew
    cases hnew
    have hheld : SpaceHeld kern pmm (ops.foldl SpaceState.perform ⟨mem', pmm', space⟩) :=
      invariant_of_guarded (fun s op h hop => h.perform op hop) hcreated.spaceHeld hops
    obtain ⟨tree', -, hframes⟩ := hheld.exists_tree
    exact hframes.drop a

/-- With one frame left after the tables, populating a page takes it, gives it back
and keeps it listed; the drop still restores the free frames. -/
theorem drop_restores_after_failed_populate :
    ∃ space mem' pmm', AddressSpace.new 0x1000 hardwareTables (fewFrames 3) =
        (some space, mem', pmm') ∧
      ∀ a, ([SpaceOp.mmap none 0x1000 protRead mapPopulate].foldl SpaceState.perform
        (SpaceState.mk mem' pmm' space)).dropped.FreeAt a ↔ (fewFrames 3).FreeAt a := by
  obtain ⟨space, mem', pmm', hnew, hchosen⟩ := exists_new (n := 3)
    (P := fun s => (s.space.chooseRange none (alignUpPage 0x1000) mapPopulate).toOption.map
      Prod.fst = some 0x60000000) (by decide +kernel)
  have hops : Guarded SpaceState.perform OpInWindow (SpaceState.mk mem' pmm' space)
      [SpaceOp.mmap none 0x1000 protRead mapPopulate] :=
    ⟨fun _ _ _ => inWindow_of_chosen hchosen ⟨by decide, by decide⟩, trivial⟩
  exact ⟨space, mem', pmm', hnew, drop_restores_free_frames hardwareKernel
    (hardwareKernel_root _) hnew _ hops⟩

end AuraOS.UserSpace
