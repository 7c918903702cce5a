import AuraOS.PageMapping

namespace AuraOS.UserSpace

open PathTrees PhysicalFrames PageTables VirtualAreas

variable {removed added earlier tables : List Nat} {mem : Mem} {gaps : Prop}
  {a b : PageState × TableTree} {s s' : PageState} {virt phys root₀ : Nat} {tree' : TableTree}

structure Confined (s s' : PageState) (kern : KernelTables) (root : Nat)
    (tree tree' : TableTree) : Prop where
  owns : OwnsPages s' kern root tree'
  mem : ∀ t, ¬ tree.Has t → ¬ s.pmm.FreeAt t → ∀ i, s'.mem t i = s.mem t i
  used : ∀ a, s.pmm.UsedAt a → ¬ tree.Has a → s'.pmm.UsedAt a
  has : ∀ a, tree'.Has a → tree.Has a ∨ s.pmm.FreeAt a
  free : ∀ a, s'.pmm.FreeAt a → s.pmm.FreeAt a ∨ tree.Has a

section Confined

variable {s s₁ s' : PageState} {kern : KernelTables} {root : Nat} {tree tree₁ tree' : TableTree}

theorem Confined.refl (h : OwnsPages s kern root tree) : Confined s s kern root tree tree :=
  ⟨h, fun _ _ _ _ => rfl, fun _ ha _ => ha, fun _ => .inl, fun _ => .inl⟩

theorem Confined.trans (h₁ : Confined s s₁ kern root tree tree₁)
    (h₂ : Confined s₁ s' kern root tree₁ tree') : Confined s s' kern root tree tree' where
  owns := h₂.owns
  mem := by
    intro t ht hfree i
    have ht₁ : ¬ tree₁.Has t := fun hhas => (h₁.has t hhas).elim ht hfree
    have hfree₁ : ¬ s₁.pmm.FreeAt t := fun hf => (h₁.free t hf).elim hfree ht
    rw [h₂.mem t ht₁ hfree₁, h₁.mem t ht hfree]
  used := by
    intro a ha ht
    refine h₂.used a (h₁.used a ha ht) fun hhas => ?_
    exact (h₁.has a hhas).elim ht ha.not_freeAt
  has := by
    intro a ha
    rcases h₂.has a ha with ha | ha
    · exact h₁.has a ha
    · exact (h₁.free a ha).symm
  free := by
    intro a ha
    rcases h₂.free a ha with ha | ha
    · exact h₁.free a ha
    · exact (h₁.has a ha).symm

theorem Shrunk.confined (h : Shrunk s s' kern root tree tree' removed) :
    Confined s s' kern root tree tree' where
  owns := h.owns
  mem := by
    intro t ht _ i
    rcases h.mem t i with hsame | ⟨hhas, -⟩
    · exact hsame
    · exact absurd hhas ht
  used := fun a ha ht => (h.used a).mpr ⟨ha, fun hmem => ht (h.was a hmem)⟩
  has := fun a ha => .inl ((h.has a).mp ha).1
  free := fun a ha => ((h.free a).mp ha).imp_right (h.was a)

variable {virt phys : Nat} {ok : Bool} {tables : List Nat}

theorem Grown.confined (h : Grown s s' tree added) (howns : OwnsPages s' kern root tree')
    (hhas : ∀ b, tree'.Has b → tree.Has b ∨ b ∈ added) :
    Confined s s' kern root tree tree' where
  owns := howns
  mem := fun t ht hfree => h.mem t ht fun hmem => hfree (h.fresh t hmem)
  used := fun a ha _ => (h.used a).mpr (.inl ha)
  has := fun a ha => (hhas a ha).imp_right (h.fresh a)
  free := fun a ha => .inl ((h.free a).mp ha).1

theorem MapAttempt.confined (h : MapAttempt s s' kern root tree virt phys ok tree' tables) :
    Confined s s' kern root tree tree' :=
  h.grown.confined h.owns h.has

theorem MapAttempt.confined_free (h : MapAttempt s s' kern root tree virt phys false tree' tables) :
    Confined s { s' with pmm := (s'.pmm.freeFrame phys).2 } kern root tree tree' where
  owns := by
    refine ⟨h.owns.rep, fun a ha => ?_⟩
    refine ((freeFrame_spec s'.pmm phys).used_iff a).mpr ⟨h.owns.used a ha, ?_⟩
    rintro rfl
    exact (h.failed rfl).1 ha
  mem := h.confined.mem
  used := by
    intro a ha ht
    refine ((freeFrame_spec s'.pmm phys).used_iff a).mpr ⟨h.confined.used a ha ht, ?_⟩
    rintro rfl
    exact ha.not_freeAt (h.grown.fresh a (.head _))
  has := h.confined.has
  free := by
    intro a ha
    rcases ((freeFrame_spec s'.pmm phys).free_iff a).mp ha with ha | ⟨rfl, -⟩
    · exact h.confined.free a ha
    · exact .inl (h.grown.fresh a (.head _))

theorem OwnsPages.store (h : OwnsPages s kern root tree) {path : List (Fin 512)} {frame : Nat}
    (hframe : tree.node path = some frame) (hlen : path.length = 4)
    (hmem : ∀ t ≠ frame, ∀ i, mem t i = s.mem t i) :
    Confined s { s with mem := mem } kern root tree tree where
  owns := by
    refine ⟨h.rep.congr fun q t ht hq i => hmem t ?_ i, h.used⟩
    rintro rfl
    rw [tree.unique q path t ht hframe, hlen] at hq
    exact absurd hq (by decide)
  mem := fun t ht _ => hmem t fun heq => ht ⟨path, heq ▸ hframe⟩
  used := fun _ ha _ => ha
  has := fun _ => .inl
  free := fun _ => .inl

/-- What the operations of a space are made of.  Where `gaps` holds, a page that could
not be mapped may have its frame freed while the frame stays listed. -/
inductive PageStep (kern : KernelTables) (root : Nat) (gaps : Prop) :
    PageState × TableTree → PageState × TableTree → Prop
  | attempt {s s' : PageState} {tree tree' : TableTree} {virt phys : Nat} {ok : Bool}
      {tables : List Nat} (h : MapAttempt s s' kern root tree virt phys ok tree' tables) :
      PageStep kern root gaps (s, tree) (s', tree')
  | takeBack {s s' : PageState} {tree tree' : TableTree} {virt phys : Nat} {tables : List Nat}
      (hgaps : gaps) (h : MapAttempt s s' kern root tree virt phys false tree' tables) :
      PageStep kern root gaps (s, tree) ({ s' with pmm := (s'.pmm.freeFrame phys).2 }, tree')
  | store {s : PageState} {tree : TableTree} {path : List (Fin 512)} {frame : Nat} {mem : Mem}
      (hframe : tree.node path = some frame) (hlen : path.length = 4)
      (hmem : ∀ t ≠ frame, ∀ i, mem t i = s.mem t i) :
      PageStep kern root gaps (s, tree) ({ s with mem := mem }, tree)
  | unmap {s s' : PageState} {tree tree' : TableTree} {removed : List Nat}
      (h : Shrunk s s' kern root tree tree' removed) :
      PageStep kern root gaps (s, tree) (s', tree')

abbrev PageRun (kern : KernelTables) (root : Nat) (gaps : Prop) :=
  Relation.ReflTransGen (PageStep kern root gaps)

theorem PageStep.confined (hstep : PageStep kern root gaps a b) (h : OwnsPages a.1 kern root a.2) :
    Confined a.1 b.1 kern root a.2 b.2 := by
  cases hstep with
  | attempt hmap => exact hmap.confined
  | takeBack _ hmap => exact hmap.confined_free
  | store hframe hlen hmem => exact h.store hframe hlen hmem
  | unmap hshrunk => exact hshrunk.confined

theorem PageRun.confined (hrun : PageRun kern root gaps a b) (h : OwnsPages a.1 kern root a.2) :
    Confined a.1 b.1 kern root a.2 b.2 := by
  induction hrun with
  | refl => exact Confined.refl h
  | tail _ hstep ih => exact ih.trans (hstep.confined ih.owns)

end Confined

section Accounting

structure Accounts (s : PageState) (tree : TableTree) : Prop where
  nodup : s.allocatedFrames.Nodup
  used : ∀ a ∈ s.allocatedFrames, s.pmm.UsedAt a
  has : ∀ a, tree.Has a → a ∈ s.allocatedFrames

structure Accounted (s s' : PageState) : Prop where
  listed : ∀ a ∈ s'.allocatedFrames, a ∈ s.allocatedFrames ∨ s.pmm.FreeAt a
  used : ∀ a, s.pmm.UsedAt a → a ∉ s.allocatedFrames → s'.pmm.UsedAt a
  free : ∀ a, s'.pmm.FreeAt a → s.pmm.FreeAt a ∨ a ∈ s.allocatedFrames

variable {s s₁ s' : PageState} {kern : KernelTables} {root : Nat} {tree tree' : TableTree}

theorem Accounted.refl (s : PageState) : Accounted s s :=
  ⟨fun _ => .inl, fun _ ha _ => ha, fun _ => .inl⟩

theorem Accounted.trans (h₁ : Accounted s s₁) (h₂ : Accounted s₁ s') : Accounted s s' where
  listed := by
    intro a ha
    rcases h₂.listed a ha with ha | ha
    · exact h₁.listed a ha
    · exact (h₁.free a ha).symm
  used := by
    intro a ha hlisted
    refine h₂.used a (h₁.used a ha hlisted) fun hmem => ?_
    exact (h₁.listed a hmem).elim hlisted ha.not_freeAt
  free := by
    intro a ha
    rcases h₂.free a ha with ha | ha
    · exact h₁.free a ha
    · exact (h₁.listed a ha).symm

theorem Grown.accounts (hgrown : Grown s s' tree added) (h : Accounts s tree)
    (hhas : ∀ a, tree'.Has a → tree.Has a ∨ a ∈ added) : Accounts s' tree' where
  nodup := by
    rw [hgrown.listed]
    refine List.Nodup.append h.nodup hgrown.nodup fun a ha hadded => ?_
    exact (h.used a ha).not_freeAt (hgrown.fresh a hadded)
  used := by
    intro a ha
    rw [hgrown.listed, List.mem_append] at ha
    exact (hgrown.used a).mpr (ha.imp_left (h.used a))
  has := by
    intro a ha
    rw [hgrown.listed, List.mem_append]
    exact (hhas a ha).imp_left (h.has a)

theorem Grown.accounted (hgrown : Grown s s' tree added) : Accounted s s' where
  listed := by
    intro a ha
    rw [hgrown.listed, List.mem_append] at ha
    exact ha.imp_right (hgrown.fresh a)
  used := fun a ha _ => (hgrown.used a).mpr (.inl ha)
  free := fun a ha => .inl ((hgrown.free a).mp ha).1

theorem Shrunk.accounts (hshrunk : Shrunk s s' kern root tree tree' removed) (h : Accounts s tree) :
    Accounts s' tree' where
  nodup := hshrunk.listed ▸ h.nodup.diff
  used := by
    intro a ha
    rw [hshrunk.listed, h.nodup.mem_sdiff_iff] at ha
    exact (hshrunk.used a).mpr ⟨h.used a ha.1, ha.2⟩
  has := by
    intro a ha
    rw [hshrunk.listed, h.nodup.mem_sdiff_iff]
    exact ⟨h.has a ((hshrunk.has a).mp ha).1, ((hshrunk.has a).mp ha).2⟩

theorem Shrunk.accounted (hshrunk : Shrunk s s' kern root tree tree' removed)
    (h : Accounts s tree) :
    Accounted s s' where
  listed := fun a ha => .inl (List.diff_subset _ _ (hshrunk.listed ▸ ha))
  used := by
    intro a ha hlisted
    exact (hshrunk.used a).mpr ⟨ha, fun hmem => hlisted (h.has a (hshrunk.was a hmem))⟩
  free := fun a ha => ((hshrunk.free a).mp ha).imp_right fun hmem => h.has a (hshrunk.was a hmem)

theorem PageStep.accounts (hstep : PageStep kern root False a b) (h : Accounts a.1 a.2) :
    Accounts b.1 b.2 ∧ Accounted a.1 b.1 := by
  cases hstep with
  | attempt hmap => exact ⟨hmap.grown.accounts h hmap.has, hmap.grown.accounted⟩
  | takeBack hgaps _ => exact hgaps.elim
  | store _ _ _ =>
    exact ⟨⟨h.nodup, h.used, h.has⟩, ⟨fun _ => .inl, fun _ ha _ => ha, fun _ => .inl⟩⟩
  | unmap hshrunk => exact ⟨hshrunk.accounts h, hshrunk.accounted h⟩

theorem PageRun.accounts (hrun : PageRun kern root False a b) (h : Accounts a.1 a.2) :
    Accounts b.1 b.2 ∧ Accounted a.1 b.1 := by
  induction hrun with
  | refl => exact ⟨h, Accounted.refl _⟩
  | tail _ hstep ih =>
    obtain ⟨hacc, heff⟩ := hstep.accounts ih.1
    exact ⟨hacc, ih.2.trans heff⟩

end Accounting

section Counting

def tableAt (mem : Mem) (root virt : Nat) : Nat → Option Nat
  | 0 => some root
  | depth + 1 =>
    (tableAt mem root virt depth).bind fun table =>
      let entry := mem table (tableIndex (3 - depth) virt)
      if isPresent entry then some (entryAddr entry) else none

/-- The tables that mapping a page adds, after the pages in `earlier` were mapped. -/
def tablesMissing (mem : Mem) (root virt : Nat) (earlier : List Nat) : Nat :=
  (List.range 3).countP fun n => (tableAt mem root virt (3 - n)).isNone &&
    earlier.all fun w => (path w).take (3 - n) ≠ (path virt).take (3 - n)

def framesNeeded (mem : Mem) (root virt : Nat) (earlier : List Nat) : Nat :=
  1 + tablesMissing mem root virt earlier

/-- Every page that is reached before the frames run out is private.  Unless `gaps`
holds, the frames do not run out between a page and its tables. -/
def MapsPages (kern : KernelTables) (gaps : Prop) (mem : Mem) (root : Nat) :
    List Nat → Nat → List Nat → Prop
  | _, _, [] => True
  | earlier, free, virt :: rest => 0 < free → kern.Private virt ∧
      (gaps ∨ framesNeeded mem root virt earlier ≤ free) ∧
      (framesNeeded mem root virt earlier ≤ free →
        MapsPages kern gaps mem root (virt :: earlier)
          (free - framesNeeded mem root virt earlier) rest)

/-- The tables of the tree are those of an earlier tree and those on the way to the
pages mapped since. -/
def Advanced (tree₀ : TableTree) (earlier : List Nat) (tree : TableTree) : Prop :=
  ∀ q, q.length ≤ 3 → ((tree.node q).isSome ↔
    (tree₀.node q).isSome ∨ ∃ w ∈ earlier, ∃ d ≤ 3, q = (path w).take d)

variable {s : PageState} {kern : KernelTables} {root : Nat} {tree₀ tree : TableTree}

theorem Advanced.refl (tree : TableTree) : Advanced tree [] tree := by
  intro q _
  simp

theorem Advanced.step (h : Advanced tree₀ earlier tree)
    (hmap : MapAttempt s s' kern root tree virt phys true tree' tables) :
    Advanced tree₀ (virt :: earlier) tree' := by
  intro q hq
  have hne : q ≠ path virt := by
    rintro rfl
    exact absurd hq (by simp [path])
  constructor
  · intro hsome
    rcases hmap.onlyTables q hne hsome with hold | ⟨d, hd, rfl⟩
    · rcases (h q hq).mp hold with hold | ⟨w, hw, hprefix⟩
      · exact .inl hold
      · exact .inr ⟨w, .tail _ hw, hprefix⟩
    · exact .inr ⟨virt, .head _, d, hd, rfl⟩
  · intro hsome
    have hold : (tree.node q).isSome → (tree'.node q).isSome := fun hsome =>
      (hmap.kept q hsome hne).symm ▸ hsome
    rcases hsome with hsome | ⟨w, hw, d, hd, rfl⟩
    · exact hold ((h q hq).mpr (.inl hsome))
    · rcases List.mem_cons.mp hw with rfl | hw
      · refine closed_take tree' w (b := 4) (by omega) ?_
        have hself := (hmap.mapped rfl).1
        exact Option.isSome_iff_exists.mpr ⟨phys, hself⟩
      · exact hold ((h _ hq).mpr (.inr ⟨w, hw, d, hd, rfl⟩))

theorem tableAt_eq (h : OwnsPages s kern root tree) (hpriv : kern.Private virt) {depth : Nat}
    (hdepth : depth ≤ 3) : tableAt s.mem root virt depth = tree.node ((path virt).take depth) := by
  induction depth with
  | zero => exact h.rep.atRoot.symm
  | succ depth ih =>
    rw [tableAt, ih (by omega)]
    cases hnode : tree.node ((path virt).take depth) with
    | none =>
      have hnone : tree.node ((path virt).take (depth + 1)) = none := by
        by_contra hsome
        have hclosed := closed_take tree virt (Nat.le_succ depth)
          (Option.ne_none_iff_isSome.mp hsome)
        rw [hnode] at hclosed
        cases hclosed
      rw [hnone]
      rfl
    | some table =>
      have hlevel : 2 - depth + 1 = 3 - depth := by omega
      have hbelow : 3 - (2 - depth) = depth + 1 := by omega
      have hself : 3 - (3 - depth) = depth := by omega
      have habove := entry_above h hpriv (hlevel ▸ Nat.sub_le 3 depth) (by rwa [hlevel, hself])
      rw [hlevel, hbelow] at habove
      simp only [Option.bind_some]
      rcases habove with ⟨next, hnext, hentry, haddr⟩ | ⟨hnext, -, hentry⟩
      · rw [hnext, hentry, if_pos (isPresent_tableEntry next), haddr]
      · rw [hnext, if_neg (by simp [hentry])]

def Shape (mem : Mem) (kern : KernelTables) (root : Nat) (tree : TableTree) : Prop :=
  ∀ virt, kern.Private virt → ∀ depth ≤ 3,
    (tableAt mem root virt depth).isSome = (tree.node ((path virt).take depth)).isSome

theorem OwnsPages.shape (h : OwnsPages s kern root tree) : Shape s.mem kern root tree :=
  fun _ hpriv _ hdepth => congrArg Option.isSome (tableAt_eq h hpriv hdepth)

theorem shape_clonedTree {kernelCr3 pml4 pdpt : Nat} (h : pdpt ≠ pml4)
    (hroot : mem kernelCr3 = kern.pml4) (hpdpt : mem (entryAddr (kern.pml4 0)) = kern.pdpt) :
    Shape mem kern kernelCr3 (clonedTree pml4 pdpt h) := by
  intro virt hpriv depth hdepth
  have hone : tableAt mem kernelCr3 virt 1 =
      if tableIndex 3 virt = 0 then some (entryAddr (kern.pml4 0)) else none := by
    simp only [tableAt, Option.bind_some, hroot]
    by_cases hzero : tableIndex 3 virt = 0
    · simp [hzero, kern.first]
    · have habsent : isPresent (kern.pml4 (tableIndex 3 virt)) = false :=
        (show _ ∨ _ from hpriv).resolve_right fun hown => hzero hown.1
      simp [hzero, habsent]
  have htwo : tableAt mem kernelCr3 virt 2 = none := by
    rw [tableAt, hone]
    split
    · rename_i hzero
      have habsent : isPresent (kern.pdpt (tableIndex 2 virt)) = false := by
        rcases (show _ ∨ _ from hpriv) with hown | hown
        · rw [hzero, kern.first] at hown
          cases hown
        · exact hown.2
      simp [hpdpt, habsent]
    · rfl
  match depth with
  | 0 => rfl
  | 1 =>
    rw [hone]
    split
    · rename_i hzero
      rw [path, List.take_succ_cons, List.take_zero, hzero, clonedTree_first]
      rfl
    · rename_i hzero
      rw [path, List.take_succ_cons, List.take_zero,
        clonedTree_of_ne h (by simp) (by simpa using hzero)]
  | 2 =>
    rw [htwo, clonedTree_of_ne h (by simp [path]) (by simp [path])]
  | 3 =>
    rw [tableAt, htwo, clonedTree_of_ne h (by simp [path]) (by simp [path])]
    rfl

theorem missing_eq (hshape : Shape mem kern root tree₀) (hadvanced : Advanced tree₀ earlier tree)
    (hpriv : kern.Private virt) : missing tree virt 3 = tablesMissing mem root virt earlier := by
  refine List.countP_congr fun n hn => ?_
  have hlen : ((path virt).take (3 - n)).length = 3 - n := length_take_path (by omega) virt
  have hiff := hadvanced ((path virt).take (3 - n)) (by omega)
  simp only [Bool.and_eq_true, List.all_eq_true, decide_eq_true_eq]
  rw [← Option.not_isSome, ← Option.not_isSome, hshape virt hpriv _ (by omega),
    Bool.not_eq_true', Bool.not_eq_true', ← Bool.not_eq_true, ← Bool.not_eq_true, hiff, not_or]
  refine and_congr_right fun _ => ⟨fun hnot w hw heq => hnot ⟨w, hw, 3 - n, by omega, heq.symm⟩,
    fun hall => ?_⟩
  rintro ⟨w, hw, d, hd, heq⟩
  have hlength := congrArg List.length heq
  rw [hlen, length_take_path (by omega)] at hlength
  exact hall w hw (hlength ▸ heq.symm)

variable (hshape : Shape mem kern root₀ tree₀) (hadvanced : Advanced tree₀ earlier tree)
include hshape hadvanced

theorem freeCount_of_mapped (hpriv : kern.Private virt)
    (hmap : MapAttempt s s' kern root tree virt phys true tree' tables) :
    s.pmm.freeCount = s'.pmm.freeCount + framesNeeded mem root₀ virt earlier := by
  rw [hmap.grown.count, List.length_cons, framesNeeded, ← missing_eq hshape hadvanced hpriv,
    (hmap.mapped rfl).2, Nat.add_comm 1]

theorem MapsPages.next {rest : List Nat} (hpriv : kern.Private virt)
    (hmap : MapAttempt s s' kern root tree virt phys true tree' tables)
    (hrest : framesNeeded mem root₀ virt earlier ≤ s.pmm.freeCount →
      MapsPages kern gaps mem root₀ (virt :: earlier)
        (s.pmm.freeCount - framesNeeded mem root₀ virt earlier) rest) :
    MapsPages kern gaps mem root₀ (virt :: earlier) s'.pmm.freeCount rest := by
  have hcount := freeCount_of_mapped hshape hadvanced hpriv hmap
  rw [hcount, Nat.add_sub_cancel] at hrest
  exact hrest (Nat.le_add_left _ _)

theorem not_framesNeeded_le (hpriv : kern.Private virt)
    (hmap : MapAttempt s s' kern root tree virt phys false tree' tables) :
    ¬ framesNeeded mem root₀ virt earlier ≤ s.pmm.freeCount := by
  have hcount := hmap.grown.count
  rw [List.length_cons, (hmap.failed rfl).2.1] at hcount
  have hmissing := (hmap.failed rfl).2.2
  rw [missing_eq hshape hadvanced hpriv] at hmissing
  rw [framesNeeded]
  omega

end Counting

end AuraOS.UserSpace
