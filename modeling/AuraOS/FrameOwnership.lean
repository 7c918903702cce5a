import AuraOS.AddressIsolation
import AuraOS.PageEntries

namespace AuraOS.UserSpace

open GuardedRuns PathTrees PhysicalFrames PageTables VirtualAreas Function

variable {virt id : Nat} {space : AddressSpace} {trees : Nat → TableTree} {mem' : Mem} {pmm' : Pmm}

def World.lists (w : World) (id a : Nat) : Prop :=
  ∃ space, w.spaces id = some space ∧ a ∈ space.allocatedFrames

def World.uses (w : World) (id a : Nat) : Prop :=
  ∃ space virt, w.spaces id = some space ∧ (a ∈ walkTables w.mem virt 3 space.pml4 ∨
    ∃ tr, translate w.mem space.pml4 virt = some tr ∧ tr.user = true ∧ tr.frame = a)

structure FramesOwned (w : World) : Prop where
  used : ∀ id a, w.lists id a → w.pmm.UsedAt a
  apart : ∀ i j a, i ≠ j → w.lists i a → ¬ w.lists j a
  drop : ∀ i j space a, i ≠ j → w.spaces i = some space → w.pmm.UsedAt a →
    ¬ (space.drop w.pmm).UsedAt a → ¬ w.uses j a

def EventInWindow (w : World) : WorldEvent → Prop
  | .new | .drop _ => True
  | .load _ _ => False
  | .perform id op => ∀ space, w.spaces id = some space → OpInWindow ⟨w.mem, w.pmm, space⟩ op

/-- A page that is populated or faulted in while a frame is free finds enough frames for
itself and for its missing tables. -/
def EventFits (kern : KernelTables) (w : World) : WorldEvent → Prop
  | .perform id op => ∀ space, w.spaces id = some space →
      OpFits kern False ⟨w.mem, w.pmm, space⟩ op
  | _ => True

section Translation

variable {s : PageState} {kern : KernelTables} {root kernelCr3 : Nat} {tree : TableTree}

theorem translate_user (h : OwnsPages s kern root tree) {tr : Translation}
    (htr : translate s.mem root virt = some tr) (huser : tr.user = true) : tree.Has tr.frame := by
  by_cases hpriv : kern.Private virt
  · rw [translate_eq h hpriv] at htr
    obtain ⟨entry, hentry, rfl⟩ := Option.map_eq_some_iff.mp htr
    exact ⟨_, node_of_pte h hpriv hentry⟩
  · rw [supervisor_of_not_private h hpriv htr] at huser
    cases huser

end Translation

section Ownership

variable {kern : KernelTables} {kernelCr3 : Nat} {w : World}

structure Accountable (kern : KernelTables) (kernelCr3 : Nat) (w : World)
    (trees : Nat → TableTree) : Prop where
  ok : WorldOk kern kernelCr3 w trees w.lists
  nodup : ∀ id space, w.spaces id = some space → space.allocatedFrames.Nodup

theorem World.lists_of_some {a : Nat} (h : w.spaces id = some space) :
    w.lists id a ↔ a ∈ space.allocatedFrames := by
  constructor
  · rintro ⟨space', hspace', ha⟩
    rw [h] at hspace'
    cases hspace'
    exact ha
  · exact fun ha => ⟨space, h, ha⟩

theorem World.Boot.accountable {boot : World} (h : boot.Boot kern kernelCr3) :
    Accountable kern kernelCr3 boot fun _ => .empty := by
  refine ⟨h.worldOk _, fun id space hid => ?_⟩
  rw [h.spaces] at hid
  cases hid

variable (h : Accountable kern kernelCr3 w trees)
include h

theorem Accountable.framesOwned : FramesOwned w := by
  have hlive : ∀ {id a}, w.lists id a → w.spaces id ≠ none := by
    rintro id a ⟨space, hspace, -⟩
    simp [hspace]
  refine ⟨fun id a ha => h.ok.used id a (hlive ha) ha,
    fun i j a hij hi hj => h.ok.apart i j a hij (hlive hi) (hlive hj) hi hj, ?_⟩
  rintro i j space a hij hspace hused hdropped ⟨other, virt, hother, huse⟩
  have hilive : w.spaces i ≠ none := by simp [hspace]
  have hjlive : w.spaces j ≠ none := by simp [hother]
  -- the drop frees only what the space lists
  have hlisted : w.lists i a := by
    by_contra hnot
    rw [World.lists_of_some hspace] at hnot
    exact hdropped ((drop_spec space w.pmm a).2.mpr ⟨hused, hnot⟩)
  have howns := h.ok.owns j other hother
  have hown : ¬ (trees j).Has a := fun hhas =>
    h.ok.apart i j a hij hilive hjlive hlisted (h.ok.has j a hjlive hhas)
  rcases huse with htable | ⟨tr, htr, huser, rfl⟩
  · rcases walkTables_space howns h.ok.kernel virt a htable with hhas | hkernel
    · exact hown hhas
    · exact (h.ok.tables virt a hkernel).2 i hilive hlisted
  · exact hown (translate_user howns htr huser)

omit h in
theorem lists_update (w : World) (mem' : Mem) (pmm' : Pmm) (id count : Nat)
    (space : Option AddressSpace) :
    World.lists ⟨mem', pmm', update w.spaces id space, count⟩ =
      update w.lists id fun a => ∃ new, space = some new ∧ a ∈ new.allocatedFrames := by
  funext j
  by_cases hj : j = id
  · subst hj
    funext a
    simp only [World.lists, update_self]
  · funext a
    simp only [World.lists, update_of_ne hj]

theorem Accountable.spare (hspared : Spared w.mem w.pmm mem' pmm') :
    Accountable kern kernelCr3 { w with mem := mem', pmm := pmm' } trees :=
  ⟨h.ok.spare hspared, h.nodup⟩

theorem Accountable.set {count : Nat}
    (hwithin : Within (w.claimed w.lists id) w.mem w.pmm mem' pmm') (space : Option AddressSpace)
    (tree : TableTree) (hspace : ∀ new, space = some new →
      Renewed kern w (w.claimed w.lists id) mem' pmm' new tree (· ∈ new.allocatedFrames) ∧
        new.allocatedFrames.Nodup) (hcount : w.count ≤ count) (hid : id < count) :
    Accountable kern kernelCr3 ⟨mem', pmm', update w.spaces id space, count⟩
      (update trees id tree) := by
  refine ⟨?_, ?_⟩
  · rw [lists_update]
    refine h.ok.set hwithin space tree _ (fun new hnew => ?_) hcount hid
    obtain ⟨hrenewed, -⟩ := hspace new hnew
    subst hnew
    refine ⟨hrenewed.owns, hrenewed.heap, fun a ha => ⟨new, rfl, hrenewed.has a ha⟩, ?_, ?_⟩
    · rintro a ⟨_, heq, ha⟩
      cases heq
      exact hrenewed.used a ha
    · rintro a ⟨_, heq, ha⟩
      cases heq
      exact hrenewed.origin a ha
  · intro j new hj
    have hget : update w.spaces id space j = some new := hj
    by_cases hjid : j = id
    · rw [hjid, update_self] at hget
      exact (hspace new hget).2
    · exact h.nodup j new ((update_of_ne hjid _ _).symm.trans hj)

theorem Accountable.add {tree : TableTree}
    (hspared : Spared w.mem w.pmm mem' pmm') (hfresh : FreshSpace w.pmm mem' pmm' kern space tree) :
    Accountable kern kernelCr3 (w.add space mem' pmm') (update trees w.count tree) := by
  refine h.set ⟨fun t _ => hspared.mem t, fun a ha _ => hspared.used a ha,
    fun a ha => .inl (hspared.free a ha)⟩ (some space) tree (fun new hnew => ?_)
    (Nat.le_succ w.count) (Nat.lt_succ_self w.count)
  cases hnew
  exact ⟨⟨hfresh.owns, hfresh.heap, hfresh.accounts.has, hfresh.accounts.used,
    fun a ha => .inr (hfresh.fresh a ha)⟩, hfresh.accounts.nodup⟩

variable (hspace : w.spaces id = some space)
include hspace

theorem Accountable.lt_count : id < w.count := by
  by_contra hge
  rw [h.ok.fresh id (Nat.not_lt.mp hge)] at hspace
  cases hspace

theorem Accountable.accounts : Accounts ⟨w.mem, w.pmm, space.allocatedFrames⟩ (trees id) := by
  have hlive : w.spaces id ≠ none := by simp [hspace]
  refine ⟨h.nodup id space hspace, fun a ha => ?_, fun a ha => ?_⟩
  · exact h.ok.used id a hlive ((World.lists_of_some hspace).mpr ha)
  · exact (World.lists_of_some hspace).mp (h.ok.has id a hlive ha)

theorem Accountable.perform (op : SpaceOp) (hfits : OpFits kern False ⟨w.mem, w.pmm, space⟩ op) :
    ∃ trees', Accountable kern kernelCr3 (w.step kernelCr3 (.perform id op)) trees' := by
  have hlive : w.spaces id ≠ none := by simp [hspace]
  have hclaimed : ∀ a, w.claimed w.lists id a ↔ a ∈ space.allocatedFrames := fun a =>
    (and_iff_right hlive).trans (World.lists_of_some hspace)
  have haccounts := h.accounts hspace
  obtain ⟨⟨tree', hrun⟩, hroot, hheap, -⟩ := perform_run (s := ⟨w.mem, w.pmm, space⟩)
    (h.ok.owns id space hspace) (h.ok.heap id space hspace) op hfits
  have hconfined := hrun.confined (h.ok.owns id space hspace)
  obtain ⟨haccounts', haccounted⟩ := hrun.accounts haccounts
  simp only [World.step, hspace]
  generalize SpaceState.perform ⟨w.mem, w.pmm, space⟩ op = s
    at hroot hheap hconfined haccounts' haccounted ⊢
  refine ⟨_, h.set ⟨fun t ht => ?_, fun a ha hnot => ?_, fun a ha => ?_⟩ (some s.space) tree'
    (fun new hnew => ?_) (Nat.le_refl w.count) (h.lt_count hspace)⟩
  · exact hconfined.mem t fun hhas => ht ((hclaimed t).mpr (haccounts.has t hhas))
  · exact haccounted.used a ha fun hmem => hnot ((hclaimed a).mpr hmem)
  · exact (haccounted.free a ha).imp_right (hclaimed a).mpr
  · cases hnew
    refine ⟨⟨hroot ▸ hconfined.owns, hheap, haccounts'.has, haccounts'.used, fun a ha => ?_⟩,
      haccounts'.nodup⟩
    exact (haccounted.listed a ha).imp_left (hclaimed a).mpr

theorem Accountable.drop :
    ∃ trees', Accountable kern kernelCr3 (w.step kernelCr3 (.drop id)) trees' := by
  have hlive : w.spaces id ≠ none := by simp [hspace]
  have hclaimed : ∀ a, w.claimed w.lists id a ↔ a ∈ space.allocatedFrames := fun a =>
    (and_iff_right hlive).trans (World.lists_of_some hspace)
  simp only [World.step, hspace]
  refine ⟨_, h.set ⟨fun t _ _ _ => rfl, fun a ha hnot => ?_, fun a ha => ?_⟩ none (trees id)
    (by rintro _ ⟨⟩) (Nat.le_refl w.count) (h.lt_count hspace)⟩
  · exact (drop_spec space w.pmm a).2.mpr ⟨ha, fun hmem => hnot ((hclaimed a).mpr hmem)⟩
  · exact ((drop_spec space w.pmm a).1.mp ha).imp_right fun hmem => (hclaimed a).mpr hmem.1

omit hspace in
theorem Accountable.step (e : WorldEvent)
    (hwindow : EventInWindow w e) (hfits : EventFits kern w e) :
    ∃ trees', Accountable kern kernelCr3 (w.step kernelCr3 e) trees' := by
  cases e with
  | new =>
    simp only [World.step]
    rcases new_cases h.ok.kernel with ⟨mem', pmm', leaked, hnew, hgrown, -⟩ |
      ⟨space, mem', pmm', tree, hnew, hcreated⟩
    · rw [hnew]
      exact ⟨trees, h.spare hgrown.spared⟩
    · rw [hnew]
      exact ⟨_, h.add hcreated.grown.spared hcreated.freshSpace⟩
  | load data stray => exact hwindow.elim
  | perform id op =>
    cases hspace : w.spaces id with
    | none =>
      simp only [World.step, hspace]
      exact ⟨trees, h⟩
    | some space => exact h.perform hspace op (hfits space hspace)
  | drop id =>
    cases hspace : w.spaces id with
    | none =>
      simp only [World.step, hspace]
      exact ⟨trees, h⟩
    | some space => exact h.drop hspace

end Ownership

/-- Frames are owned after every step of a run in the window exactly if no page is caught
between its own frame and the frames of its tables. -/
theorem framesOwned_iff_fits {kern : KernelTables} {kernelCr3 : Nat} {boot : World}
    (hboot : boot.Boot kern kernelCr3) (ops : List WorldEvent)
    (hwindow : Guarded (World.step kernelCr3) EventInWindow boot ops) :
    Guarded (World.step kernelCr3) (EventFits kern) boot ops ↔
      ∀ k, FramesOwned ((ops.take k).foldl (World.step kernelCr3) boot) := by
  have hstep : ∀ w e, (∃ trees, Accountable kern kernelCr3 w trees) → EventInWindow w e →
      EventFits kern w e → ∃ trees, Accountable kern kernelCr3 (w.step kernelCr3 e) trees := by
    rintro w e ⟨trees, h⟩ hin hfits
    exact h.step e hin hfits
  have hexact : ∀ w e, (∃ trees, Accountable kern kernelCr3 w trees) → EventInWindow w e →
      FramesOwned (w.step kernelCr3 e) → EventFits kern w e := by
    rintro w e ⟨trees, h⟩ hin hgood
    cases e with
    | new => trivial
    | load data stray => trivial
    | drop id => trivial
    | perform id op =>
      intro space hspace
      obtain ⟨-, -, -, hfits | ⟨a, hmem, hfree⟩⟩ := perform_run (s := ⟨w.mem, w.pmm, space⟩)
        (h.ok.owns id space hspace) (h.ok.heap id space hspace) op
        (opFits_of_inWindow (hin space hspace))
      · exact hfits
      · simp only [World.step, hspace] at hgood
        exact absurd hfree (hgood.used id a ⟨_, update_self .., hmem⟩).not_freeAt
  exact guarded_iff_of_domain hstep (fun w h => h.elim fun _ hw => hw.framesOwned) hexact
    ⟨_, hboot.accountable⟩ hwindow

def scarceWorld (n : Nat) : World :=
  ⟨hardwareTables, fewFrames n, fun _ => none, 0⟩

theorem scarceWorld_boot (n : Nat) : (scarceWorld n).Boot hardwareKernel 0x1000 :=
  ⟨hardwareKernel_root _, fun _ _ ht => not_freeAt_of_low (walkTables_hardware ht), rfl⟩

/-- Running out of frames in `allocate_and_map_page` does no harm. -/
theorem framesOwned_after_failed_mapPage :
    FramesOwned ([.new, .perform 0 (.mapPage 0x40000000 true), .drop 0].foldl
      (World.step 0x1000) (scarceWorld 3)) := by
  refine (framesOwned_iff_fits (scarceWorld_boot 3)
    [.new, .perform 0 (.mapPage 0x40000000 true), .drop 0]
    ⟨trivial, fun _ _ => ?_, trivial, trivial⟩).mp ⟨trivial, fun _ _ => ?_, trivial, trivial⟩ 3
  · exact ⟨by decide, by decide⟩
  · exact private_of_window ⟨by decide, by decide⟩

/-- With one frame left, populating a page takes it, finds none for the page directory and
frees it again; the space still lists it. -/
theorem populate_lists_free_frame :
    ¬ FramesOwned ([.new, .perform 0 (.mmap none 0x1000 protRead mapPopulate)].foldl
      (World.step 0x1000) (scarceWorld 3)) := by
  have hlisted : (([.new, .perform 0 (.mmap none 0x1000 protRead mapPopulate)].foldl
      (World.step 0x1000) (scarceWorld 3)).spaces 0).map AddressSpace.allocatedFrames =
        some [0x200000, 0x201000, 0x202000] := by
    decide +kernel
  have hfree : ([.new, .perform 0 (.mmap none 0x1000 protRead mapPopulate)].foldl
      (World.step 0x1000) (scarceWorld 3)).pmm.isUsed 2 = false := by
    decide +kernel
  intro h
  obtain ⟨space, hspace, hframes⟩ := Option.map_eq_some_iff.mp hlisted
  have hused := h.used 0 0x202000 ⟨space, hspace, by simp [hframes]⟩
  exact hused.not_freeAt ⟨2, by decide, by decide, hfree⟩

end AuraOS.UserSpace
