import AuraOS.OwnedTables

namespace AuraOS.UserSpace

open PathTrees PhysicalFrames PageTables

variable {pmm : Pmm} {a virt t level table phys root : Nat} {mem mem' : Mem}
  {tree tree₁ tree' : TableTree} {i : Fin 512} {s : PageState}

structure OwnsPages (s : PageState) (kern : KernelTables) (root : Nat) (tree : TableTree) :
    Prop where
  rep : Represents s.mem kern root tree
  used : ∀ a, tree.Has a → s.pmm.UsedAt a

/-- The frames in `added` were free and are now in use and listed.  Only they and
frames of the tree were written. -/
structure Grown (s s' : PageState) (tree : TableTree) (added : List Nat) : Prop where
  mem : ∀ t, ¬ tree.Has t → t ∉ added → ∀ i, s'.mem t i = s.mem t i
  fresh : ∀ a ∈ added, s.pmm.FreeAt a
  nodup : added.Nodup
  free : ∀ a, s'.pmm.FreeAt a ↔ s.pmm.FreeAt a ∧ a ∉ added
  used : ∀ a, s'.pmm.UsedAt a ↔ s.pmm.UsedAt a ∨ a ∈ added
  count : s.pmm.freeCount = s'.pmm.freeCount + added.length
  listed : s'.allocatedFrames = s.allocatedFrames ++ added

section Growth

variable {s s₁ s' : PageState} {tree tree₁ : TableTree} {kern : KernelTables} {root : Nat}

theorem Grown.refl (s : PageState) (tree : TableTree) : Grown s s tree [] := by
  constructor <;> simp

theorem Grown.trans {added₁ added₂ : List Nat} (h₁ : Grown s s₁ tree added₁)
    (h₂ : Grown s₁ s' tree₁ added₂) (htree : ∀ a, tree₁.Has a → tree.Has a ∨ a ∈ added₁) :
    Grown s s' tree (added₁ ++ added₂) where
  mem := by
    intro t ht hadded i
    rw [List.mem_append, not_or] at hadded
    have ht₁ : ¬ tree₁.Has t := fun hmem => (htree t hmem).elim ht hadded.1
    rw [h₂.mem t ht₁ hadded.2, h₁.mem t ht hadded.1]
  fresh := by
    intro a ha
    rcases List.mem_append.mp ha with ha | ha
    · exact h₁.fresh a ha
    · exact ((h₁.free a).mp (h₂.fresh a ha)).1
  nodup := by
    refine List.Nodup.append h₁.nodup h₂.nodup ?_
    intro a ha₁ ha₂
    exact ((h₁.free a).mp (h₂.fresh a ha₂)).2 ha₁
  free := by
    intro a
    rw [h₂.free, h₁.free, List.mem_append, not_or, and_assoc]
  used := by
    intro a
    rw [h₂.used, h₁.used, List.mem_append, or_assoc]
  count := by
    rw [h₁.count, h₂.count, List.length_append]
    omega
  listed := by
    rw [h₂.listed, h₁.listed, List.append_assoc]

theorem grown_of_allocated (halloc : Allocated s.pmm pmm a)
    (hmem : ∀ t, ¬ tree.Has t → t ≠ a → ∀ i, mem t i = s.mem t i) :
    Grown s ⟨mem, pmm, s.allocatedFrames ++ [a]⟩ tree [a] where
  mem := fun t ht hne => hmem t ht (by simpa using hne)
  fresh := by simpa using halloc.free
  nodup := List.nodup_singleton a
  free := by simpa using halloc.free_iff
  used := by simpa using halloc.used_iff
  count := halloc.count
  listed := rfl

variable (h : OwnsPages s kern root tree)
include h

theorem OwnsPages.isFrame (ha : tree.Has a) : IsFrame a := by
  obtain ⟨frame, hframe, rfl, -⟩ := h.used a ha
  exact isFrame_frameAddr hframe

theorem OwnsPages.not_free (ha : tree.Has a) : ¬ s.pmm.FreeAt a :=
  (h.used a ha).not_freeAt

theorem OwnsPages.grow {added : List Nat} (hgrown : Grown s s' tree added)
    (hmem : ∀ t, tree.Has t → ∀ i, s'.mem t i = s.mem t i) : OwnsPages s' kern root tree where
  rep := h.rep.congr fun path t ht _ => hmem t ⟨path, ht⟩
  used := fun a ha => (hgrown.used a).mpr (.inl (h.used a ha))

end Growth

def missing (tree : TableTree) (virt level : Nat) : Nat :=
  (List.range level).countP fun n => (tree.node ((path virt).take (3 - n))).isNone

theorem missing_succ (tree : TableTree) (virt level : Nat) :
    missing tree virt (level + 1) = missing tree virt level +
      if (tree.node ((path virt).take (3 - level))).isNone then 1 else 0 := by
  rw [missing, List.range_succ, List.countP_append, ← missing, List.countP_singleton]

structure Filled (tree tree' : TableTree) (virt : Nat) : Prop where
  kept : ∀ q, (tree.node q).isSome → tree'.node q = tree.node q
  added : ∀ q, (tree'.node q).isSome → (tree.node q).isSome ∨ ∃ d ≤ 3, q = (path virt).take d

theorem Filled.refl (tree : TableTree) (virt : Nat) : Filled tree tree virt :=
  ⟨fun _ _ => rfl, fun _ => .inl⟩

theorem Filled.trans (h : Filled tree tree₁ virt) (h' : Filled tree₁ tree' virt) :
    Filled tree tree' virt where
  kept := by
    intro q hq
    have hq₁ := h.kept q hq
    rw [h'.kept q (hq₁ ▸ hq), hq₁]
  added := by
    intro q hq
    rcases h'.added q hq with hq | hq
    · exact h.added q hq
    · exact .inr hq

theorem closed_take (tree : TableTree) (virt : Nat) {b : Nat} (h : a ≤ b)
    (hb : (tree.node ((path virt).take b)).isSome) : (tree.node ((path virt).take a)).isSome := by
  induction b with
  | zero =>
    have ha : a = 0 := by omega
    exact ha ▸ hb
  | succ b ih =>
    by_cases hab : a = b + 1
    · exact hab ▸ hb
    · refine ih (by omega) ?_
      by_cases hlt : b < (path virt).length
      · rw [List.take_succ_eq_append_getElem hlt] at hb
        exact tree.closed _ _ hb
      · rw [List.take_of_length_le (by omega)] at hb ⊢
        exact hb

section Tables

variable {s : PageState} {tree : TableTree} {kern : KernelTables} {root : Nat}

theorem freeCount_eq_zero (h : pmm.allocFrame = none) : pmm.freeCount = 0 := by
  rw [Pmm.freeCount, Finset.card_eq_zero, Finset.filter_eq_empty_iff]
  intro frame hframe hclear
  exact allocFrame_eq_none h _ ⟨frame, Finset.mem_range.mp hframe, rfl, hclear⟩

theorem reopen_tableEntry (a : Nat) :
    makeEntry a (entryFlags (makeEntry a tableFlags) ||| userAccessible ||| PageTables.writable) =
      makeEntry a tableFlags := by
  rw [entryFlags_makeEntry]
  congr 1

theorem isPresent_tableEntry (a : Nat) : isPresent (makeEntry a tableFlags) = true := by
  rw [isPresent_makeEntry]
  decide

theorem isLeaf_tableEntry (level a : Nat) :
    isLeaf (level + 1) (makeEntry a tableFlags) = false := by
  have hhuge : hasFlag (makeEntry a tableFlags) hugePage = false := by
    rw [hasFlag_makeEntry (by decide) (by decide)]
    decide
  simp [isLeaf, hhuge]

theorem nextTable_of_some (h : OwnsPages s kern root tree) {path : List (Fin 512)}
    (ht : tree.node path = some t) (hlen : path.length < 3) (hown : kern.Own (path ++ [i]))
    (ha : tree.node (path ++ [i]) = some a) : s.nextTable t i = (some a, s) := by
  have hentry := h.rep.entry path t i ht (by omega) hown
  simp only [ha, EntryFor, if_pos hlen] at hentry
  have hframe := h.isFrame ⟨_, ha⟩
  have hsame : s.mem.setEntry t i (makeEntry a tableFlags) = s.mem := by
    rw [← hentry]
    exact setEntry_same
  simp only [PageState.nextTable, hentry, isPresent_tableEntry, if_true,
    entryAddr_makeEntry hframe, reopen_tableEntry, hsame]

theorem nextTable_of_none (h : OwnsPages s kern root tree) {path : List (Fin 512)}
    (ht : tree.node path = some t) (hlen : path.length < 3) (hown : kern.Own (path ++ [i]))
    (hnone : tree.node (path ++ [i]) = none) :
    (s.pmm.freeCount = 0 ∧ s.nextTable t i = (none, s)) ∨
      ∃ a s' tree', s.nextTable t i = (some a, s') ∧ OwnsPages s' kern root tree' ∧
        Grown s s' tree [a] ∧ tree'.node (path ++ [i]) = some a ∧
        (∀ q ≠ path ++ [i], tree'.node q = tree.node q) ∧
        ∀ b, tree'.Has b ↔ tree.Has b ∨ b = a := by
  have hentry := h.rep.entry path t i ht (by omega) hown
  simp only [hnone, EntryFor] at hentry
  simp only [PageState.nextTable, hentry, Bool.false_eq_true, if_false, allocPageTable]
  cases halloc : s.pmm.allocFrame with
  | none => exact .inl ⟨freeCount_eq_zero halloc, rfl⟩
  | some r =>
    obtain ⟨a, pmm⟩ := r
    have hspec := allocFrame_spec halloc
    have hfresh : ¬ tree.Has a := fun ha => h.not_free ha hspec.free
    have hparent : (tree.node path).isSome := by simp [ht]
    have hzeroed : Represents (s.mem.zeroFrame a) kern root tree := by
      refine h.rep.congr fun q t' ht' _ j => if_neg ?_
      rintro rfl
      exact hfresh ⟨q, ht'⟩
    have hfirst : [0] ≠ path ++ [i] := by
      intro heq
      have hpdpt := h.rep.pdpt
      rw [heq, hnone] at hpdpt
      cases hpdpt
    have hrep : Represents ((s.mem.zeroFrame a).setEntry t i (makeEntry a tableFlags)) kern root
        (tree.extend path i a hparent hfresh) := by
      refine hzeroed.setEntry ht (by omega) hown hfirst extend_self (fun q hq => extend_of_ne hq)
        (by simp [EntryFor, hlen]) fun b hb _ j => ⟨?_, ?_⟩
      · by_contra hsome
        have hclosed := tree.closed _ j (Option.ne_none_iff_isSome.mp hsome)
        rw [hnone] at hclosed
        cases hclosed
      · cases hb
        simp only [Mem.zeroFrame, if_true]
        decide
    refine .inr ⟨a, _, tree.extend path i a hparent hfresh, rfl, ⟨hrep, ?_⟩,
      grown_of_allocated hspec ?_, extend_self, fun q hq => extend_of_ne hq,
      extend_has hnone⟩
    · intro b hb
      rw [extend_has hnone] at hb
      exact (hspec.used_iff b).mpr (hb.imp_left (h.used b))
    · intro t' ht' hne' j
      have hnt : t' ≠ t := fun heq => ht' ⟨path, heq ▸ ht⟩
      rw [setEntry_of_ne hnt]
      exact if_neg hne'

theorem nextTable_mem (s : PageState) (index : Fin 512) (hne : t ≠ table) (hused : ¬ s.pmm.FreeAt t)
    (i : Fin 512) : (s.nextTable table index).2.mem t i = s.mem t i := by
  simp only [PageState.nextTable]
  split
  · exact setEntry_of_ne hne _ _ _
  · cases halloc : s.pmm.allocFrame with
    | none =>
      simp only [allocPageTable, halloc]
      rfl
    | some r =>
      obtain ⟨a, pmm⟩ := r
      have hta : t ≠ a := fun heq => hused (heq ▸ (allocFrame_spec halloc).free)
      simp only [allocPageTable, halloc]
      exact (setEntry_of_ne hne _ _ _).trans (if_neg hta)

theorem path_above (hpriv : kern.Private virt) (hlevel : level + 1 ≤ 3) :
    (path virt).take (3 - level) =
        (path virt).take (3 - (level + 1)) ++ [tableIndex (level + 1) virt] ∧
      kern.Own ((path virt).take (3 - (level + 1)) ++ [tableIndex (level + 1) virt]) ∧
      ((path virt).take (3 - (level + 1))).length < 3 := by
  have hpath := path_take (level + 1) hlevel virt
  have hdepth : 4 - (level + 1) = 3 - level := by omega
  refine ⟨hdepth ▸ hpath, hpath ▸ own_take virt hpriv _, ?_⟩
  rw [length_take_path (by omega)]
  omega

theorem entry_above (h : OwnsPages s kern root tree) (hpriv : kern.Private virt)
    (hlevel : level + 1 ≤ 3) (ht : tree.node ((path virt).take (3 - (level + 1))) = some table) :
    (∃ next, tree.node ((path virt).take (3 - level)) = some next ∧
      s.mem table (tableIndex (level + 1) virt) = makeEntry next tableFlags ∧
      entryAddr (makeEntry next tableFlags) = next) ∨
    tree.node ((path virt).take (3 - level)) = none ∧ tree.node ((path virt).take 3) = none ∧
      isPresent (s.mem table (tableIndex (level + 1) virt)) = false := by
  obtain ⟨hpath, hown, hlen⟩ := path_above hpriv hlevel
  have hentry := h.rep.entry _ table (tableIndex (level + 1) virt) ht (by omega) hown
  rw [← hpath] at hentry
  cases hnode : tree.node ((path virt).take (3 - level)) with
  | some next =>
    simp only [hnode, EntryFor, if_pos hlen] at hentry
    exact .inl ⟨next, rfl, hentry, entryAddr_makeEntry (h.isFrame ⟨_, hnode⟩) tableFlags⟩
  | none =>
    simp only [hnode, EntryFor] at hentry
    refine .inr ⟨rfl, ?_, hentry⟩
    by_contra hsome
    have hclosed := closed_take tree virt (a := 3 - level) (b := 3) (by omega)
      (Option.ne_none_iff_isSome.mp hsome)
    rw [hnode] at hclosed
    cases hclosed

theorem leafTable_step (h : OwnsPages s kern root tree) (hpriv : kern.Private virt)
    (hlevel : level + 1 ≤ 3) (ht : tree.node ((path virt).take (3 - (level + 1))) = some table) :
    (∃ next, tree.node ((path virt).take (3 - level)) = some next ∧
      PageState.leafTable virt (level + 1) table s = PageState.leafTable virt level next s) ∨
    tree.node ((path virt).take (3 - level)) = none ∧
      (s.pmm.freeCount = 0 ∧ PageState.leafTable virt (level + 1) table s = (none, s) ∨
      ∃ a s' tree', s.nextTable table (tableIndex (level + 1) virt) = (some a, s') ∧
        PageState.leafTable virt (level + 1) table s = PageState.leafTable virt level a s' ∧
        OwnsPages s' kern root tree' ∧ Grown s s' tree [a] ∧
        tree'.node ((path virt).take (3 - level)) = some a ∧
        (∀ q ≠ (path virt).take (3 - level), tree'.node q = tree.node q) ∧
        ∀ b, tree'.Has b ↔ tree.Has b ∨ b = a) := by
  obtain ⟨hpath, hown, hlen⟩ := path_above hpriv hlevel
  rw [hpath]
  simp only [PageState.leafTable]
  cases hnode : tree.node ((path virt).take (3 - (level + 1)) ++ [tableIndex (level + 1) virt]) with
  | some next =>
    rw [nextTable_of_some h ht hlen hown hnode]
    exact .inl ⟨next, rfl, rfl⟩
  | none =>
    refine .inr ⟨rfl, ?_⟩
    rcases nextTable_of_none h ht hlen hown hnode with ⟨hfull, heq⟩ | ⟨a, s₁, tree₁, heq, hrest⟩
    · rw [heq]
      exact .inl ⟨hfull, rfl⟩
    · rw [heq]
      exact .inr ⟨a, s₁, tree₁, rfl, rfl, hrest⟩

theorem missing_congr (hlevel : level ≤ 3)
    (h : ∀ q ≠ (path virt).take (3 - level), tree'.node q = tree.node q) :
    missing tree' virt level = missing tree virt level := by
  refine List.countP_congr fun n hn => ?_
  rw [h]
  intro heq
  have hlength := congrArg List.length heq
  rw [length_take_path (by omega), length_take_path (by omega)] at hlength
  grind

theorem leafTable_spec (hpriv : kern.Private virt) (hlevel : level ≤ 3)
    (h : OwnsPages s kern root tree) (ht : tree.node ((path virt).take (3 - level)) = some table) :
    let r := PageState.leafTable virt level table s
    ∃ tree' tables, OwnsPages r.2 kern root tree' ∧ Grown s r.2 tree tables ∧
      (∀ b, tree'.Has b ↔ tree.Has b ∨ b ∈ tables) ∧ Filled tree tree' virt ∧
      (∀ q t, tree.node q = some t → 3 ≤ q.length → ∀ i, r.2.mem t i = s.mem t i) ∧
      ((∃ leaf, r.1 = some leaf ∧ tree'.node ((path virt).take 3) = some leaf ∧
          tables.length = missing tree virt level) ∨
        (r.1 = none ∧ r.2.pmm.freeCount = 0 ∧ tables.length < missing tree virt level)) := by
  induction level generalizing s tree table with
  | zero =>
    exact ⟨tree, [], h, Grown.refl s tree, by simp, Filled.refl tree virt, fun _ _ _ _ _ => rfl,
      .inl ⟨table, rfl, ht, rfl⟩⟩
  | succ level ih =>
    rw [missing_succ]
    rcases leafTable_step h hpriv hlevel ht with ⟨next, hnode, heq⟩ | ⟨hnode, ⟨hfull, heq⟩ |
      ⟨a, s₁, tree₁, hnext, heq, h₁, hgrown₁, hself, hothers, hhas₁⟩⟩
    · rw [heq, hnode]
      exact ih (by omega) h hnode
    · rw [heq, hnode]
      exact ⟨tree, [], h, Grown.refl s tree, by simp, Filled.refl tree virt,
        fun _ _ _ _ _ => rfl, .inr ⟨rfl, hfull, by simp⟩⟩
    · rw [heq, hnode]
      obtain ⟨tree', tables, h', hgrown, hhas, hfilled, hdeep, houtcome⟩ := ih (by omega) h₁ hself
      rw [missing_congr (by omega) hothers] at houtcome
      have hfilled₁ : Filled tree tree₁ virt := by
        refine ⟨fun q hq => hothers q ?_, fun q hq => ?_⟩
        · rintro rfl
          rw [hnode] at hq
          cases hq
        · by_cases hq' : q = (path virt).take (3 - level)
          · exact .inr ⟨3 - level, by omega, hq'⟩
          · rw [hothers q hq'] at hq
            exact .inl hq
      refine ⟨tree', a :: tables, h', hgrown₁.trans hgrown ?_, ?_, hfilled₁.trans hfilled, ?_, ?_⟩
      · intro b hb
        simpa using (hhas₁ b).mp hb
      · intro b
        rw [hhas, hhas₁, List.mem_cons, or_assoc]
      · intro q t hq hlen i
        have hne : t ≠ table := by
          rintro rfl
          rw [tree.unique q _ t hq ht, List.length_take] at hlen
          omega
        have hfirst := nextTable_mem s (tableIndex (level + 1) virt) hne (h.not_free ⟨q, hq⟩) i
        rw [hnext] at hfirst
        exact (hdeep q t ((hfilled₁.kept q (by simp [hq])).trans hq) hlen i).trans hfirst
      · simp only [Option.isNone_none, if_true, List.length_cons]
        rcases houtcome with ⟨leaf, hleaf, hat, hcount⟩ | ⟨hnone, hfull, hcount⟩
        · exact .inl ⟨leaf, hleaf, hat, by omega⟩
        · exact .inr ⟨hnone, hfull, by omega⟩

end Tables

section Pages

variable {s : PageState} {tree : TableTree} {kern : KernelTables} {root : Nat} {virt : Nat}

variable (h : OwnsPages s kern root tree)
include h

theorem path_leaf (virt : Nat) (j : Fin 512) :
    tree.node ((path virt).take 3 ++ [tableIndex 0 virt] ++ [j]) = none := by
  by_contra hsome
  have hdepth := h.rep.depth _ (Option.ne_none_iff_isSome.mp hsome)
  simp [path] at hdepth

theorem OwnsPages.prune_page {leaf : Nat}
    (hleaf : tree.node ((path virt).take 3) = some leaf) (hpriv : kern.Private virt) :
    Represents (s.mem.setEntry leaf (tableIndex 0 virt) 0) kern root
      (tree.prune ((path virt).take 3 ++ [tableIndex 0 virt]) (path_leaf h virt)) :=
  h.rep.setEntry hleaf (by simp [path]) hpriv (by simp [path]) prune_self
    (fun _ hq => prune_of_ne hq) rfl nofun

variable (hpriv : kern.Private virt)
include hpriv

theorem setPage_spec {leaf : Nat} (hleaf : tree.node ((path virt).take 3) = some leaf)
    (hfresh : ¬ tree.Has phys) (hused : s.pmm.UsedAt phys) (writable : Bool) :
    ∃ tree' : TableTree, OwnsPages { s with
        mem := s.mem.setEntry leaf (tableIndex 0 virt) (makeEntry phys (pageFlags writable)) }
        kern root tree' ∧
      tree'.node (path virt) = some phys ∧ (∀ q ≠ path virt, tree'.node q = tree.node q) ∧
      ∀ b, tree'.Has b → tree.Has b ∨ b = phys := by
  let tree' := tree.extend ((path virt).take 3) (tableIndex 0 virt) phys (by simp [hleaf]) hfresh
  have hothers (q : List (Fin 512)) (hq : q ≠ path virt) : tree'.node q = tree.node q :=
    extend_of_ne hq
  have hself : tree'.node (path virt) = some phys := extend_self
  have hhas (b : Nat) (hb : tree'.Has b) : tree.Has b ∨ b = phys := by
    obtain ⟨q, hq⟩ := hb
    by_cases hpath : q = path virt
    · rw [hpath, hself] at hq
      exact .inr (Option.some.inj hq).symm
    · exact .inl ⟨q, (hothers q hpath).symm.trans hq⟩
  refine ⟨tree', ⟨h.rep.setEntry hleaf (by simp [path]) hpriv (by simp [path]) hself hothers
    ⟨writable, rfl⟩ fun a _ hlt => absurd hlt (by simp [path]), fun b hb => ?_⟩, hself, hothers,
      hhas⟩
  rcases hhas b hb with hb | rfl
  · exact h.used b hb
  · exact hused

omit h hpriv in
structure MapAttempt (s s' : PageState) (kern : KernelTables) (root : Nat) (tree : TableTree)
    (virt phys : Nat) (ok : Bool) (tree' : TableTree) (tables : List Nat) : Prop where
  owns : OwnsPages s' kern root tree'
  grown : Grown s s' tree (phys :: tables)
  has : ∀ b, tree'.Has b → tree.Has b ∨ b ∈ phys :: tables
  kept : ∀ q, (tree.node q).isSome → q ≠ path virt → tree'.node q = tree.node q
  onlyTables : ∀ q, q ≠ path virt → (tree'.node q).isSome →
    (tree.node q).isSome ∨ ∃ d ≤ 3, q = (path virt).take d
  mapped : ok = true → tree'.node (path virt) = some phys ∧ tables.length = missing tree virt 3
  failed : ok = false → ¬ tree'.Has phys ∧ s'.pmm.freeCount = 0 ∧
    tables.length < missing tree virt 3

theorem mapUserPage_spec (halloc : s.pmm.allocFrame = some (phys, pmm))
    (hmem : ∀ t ≠ phys, ∀ i, mem t i = s.mem t i) (writable : Bool) :
    let r := PageState.mapUserPage ⟨mem, pmm, s.allocatedFrames ++ [phys]⟩ root virt phys writable
    ∃ tree' tables, MapAttempt s r.2 kern root tree virt phys r.1 tree' tables := by
  have hspec := allocFrame_spec halloc
  have hfresh : ¬ tree.Has phys := fun ha => h.not_free ha hspec.free
  have hgrown₀ : Grown s ⟨mem, pmm, s.allocatedFrames ++ [phys]⟩ tree [phys] :=
    grown_of_allocated hspec fun t _ hne => hmem t hne
  have h₀ : OwnsPages ⟨mem, pmm, s.allocatedFrames ++ [phys]⟩ kern root tree :=
    h.grow hgrown₀ fun t ht => hmem t fun heq => hfresh (heq ▸ ht)
  obtain ⟨tree₁, tables, h₁, hgrown, hhas, hfilled, -, houtcome⟩ :=
    leafTable_spec hpriv (Nat.le_refl 3) h₀ h₀.rep.atRoot
  have hgrown₁ := hgrown₀.trans hgrown fun a ha => .inl ha
  have hphysUsed : Pmm.UsedAt pmm phys := (hspec.used_iff phys).mpr (.inr rfl)
  have hfresh₁ : ¬ tree₁.Has phys := by
    intro hb
    rcases (hhas phys).mp hb with hb | hb
    · exact hfresh hb
    · exact hphysUsed.not_freeAt (hgrown.fresh phys hb)
  simp only [PageState.mapUserPage]
  generalize hresult : PageState.leafTable virt 3 root
    ⟨mem, pmm, s.allocatedFrames ++ [phys]⟩ = result at *
  obtain ⟨found, s₁⟩ := result
  rcases houtcome with ⟨leaf, rfl, hat, hcount⟩ | ⟨rfl, hfull, hcount⟩
  · obtain ⟨tree', h', hself, hothers, hhas'⟩ := setPage_spec h₁ hpriv hat hfresh₁
      ((hgrown.used phys).mpr (.inl hphysUsed)) writable
    refine ⟨tree', tables, h', ?_, ?_, ?_, ?_, fun _ => ⟨hself, hcount⟩, nofun⟩
    · refine ⟨?_, hgrown₁.fresh, hgrown₁.nodup, hgrown₁.free, hgrown₁.used, hgrown₁.count,
        hgrown₁.listed⟩
      intro t ht hadded i
      have hne : t ≠ leaf := by
        rintro rfl
        rcases (hhas t).mp ⟨_, hat⟩ with ht' | ht'
        · exact ht ht'
        · exact hadded (.tail _ ht')
      simp only [setEntry_of_ne hne]
      exact hgrown₁.mem t ht hadded i
    · intro b hb
      rcases hhas' b hb with hb | rfl
      · exact ((hhas b).mp hb).imp_right (.tail _)
      · exact .inr (.head _)
    · intro q hq hne
      rw [hothers q hne, hfilled.kept q hq]
    · intro q hne hq
      rw [hothers q hne] at hq
      exact hfilled.added q hq
  · refine ⟨tree₁, tables, h₁, hgrown₁, ?_, fun q hq _ => hfilled.kept q hq,
      fun q _ => hfilled.added q, nofun, fun _ => ⟨hfresh₁, hfull, hcount⟩⟩
    exact fun b hb => ((hhas b).mp hb).imp_right (.tail _)

theorem findTable_eq
    (hlevel : level ≤ 3) (ht : tree.node ((path virt).take (3 - level)) = some table) :
    findTable s.mem virt level table = tree.node ((path virt).take 3) := by
  induction level generalizing table with
  | zero => exact ht.symm
  | succ level ih =>
    rw [findTable]
    rcases entry_above h hpriv hlevel ht with ⟨next, hnode, hentry, haddr⟩ | ⟨-, hnone, hentry⟩
    · rw [hentry, if_pos (isPresent_tableEntry next), haddr]
      exact ih (by omega) hnode
    · rw [hnone, if_neg (by simp [hentry])]

omit h hpriv in
/-- Whether `unmap_user_page` would find the page present. -/
def pageMapped (mem : Mem) (root virt : Nat) : Bool :=
  match findTable mem virt 3 root with
  | none => false
  | some table => isPresent (mem table (tableIndex 0 virt))

omit h hpriv in
theorem unmapUserPage_of_not_mapped (h : pageMapped s.mem root virt = false) :
    s.unmapUserPage root virt = (none, s) := by
  simp only [pageMapped] at h
  simp only [PageState.unmapUserPage]
  split
  · rfl
  · rename_i table hfind
    simp only [hfind] at h
    rw [if_neg (by simp [h])]

omit h hpriv in
theorem findTable_of_cleared (h : ∀ t i, mem' t i = mem t i ∨ mem' t i = 0) (virt level table : Nat)
    {found : Nat} (hfind : findTable mem' virt level table = some found) :
    findTable mem virt level table = some found := by
  induction level generalizing table with
  | zero => exact hfind
  | succ level ih =>
    simp only [findTable] at hfind ⊢
    split at hfind
    · rename_i hpresent
      rcases h table (tableIndex (level + 1) virt) with hsame | hzero
      · rw [hsame] at hpresent hfind
        rw [if_pos hpresent]
        exact ih _ hfind
      · rw [hzero] at hpresent
        exact absurd hpresent (by decide)
    · cases hfind

omit h hpriv in
theorem pageMapped_of_cleared (h : ∀ t i, mem' t i = mem t i ∨ mem' t i = 0)
    (hnot : pageMapped mem root virt = false) : pageMapped mem' root virt = false := by
  simp only [pageMapped] at hnot ⊢
  cases hfind : findTable mem' virt 3 root with
  | none => rfl
  | some table =>
    simp only [findTable_of_cleared h virt 3 root hfind] at hnot
    simp only
    rcases h table (tableIndex 0 virt) with hsame | hzero
    · rw [hsame]
      exact hnot
    · rw [hzero]
      decide

omit h hpriv in
/-- The frames in `removed` left the tree and are free and unlisted.  Only entries of
the tree's tables were cleared. -/
structure Shrunk (s s' : PageState) (kern : KernelTables) (root : Nat) (tree tree' : TableTree)
    (removed : List Nat) : Prop where
  owns : OwnsPages s' kern root tree'
  mem : ∀ t i, s'.mem t i = s.mem t i ∨ tree.Has t ∧ s'.mem t i = 0
  has : ∀ b, tree'.Has b ↔ tree.Has b ∧ b ∉ removed
  was : ∀ a ∈ removed, tree.Has a
  free : ∀ a, s'.pmm.FreeAt a ↔ s.pmm.FreeAt a ∨ a ∈ removed
  used : ∀ a, s'.pmm.UsedAt a ↔ s.pmm.UsedAt a ∧ a ∉ removed
  listed : s'.allocatedFrames = s.allocatedFrames.diff removed

omit hpriv in
theorem Shrunk.refl : Shrunk s s kern root tree tree [] := by
  refine ⟨h, fun t i => .inl rfl, ?_, ?_, ?_, ?_, rfl⟩ <;> simp

omit h hpriv in
theorem Shrunk.trans {s₁ s' : PageState} {removed₁ removed₂ : List Nat}
    (h₁ : Shrunk s s₁ kern root tree tree₁ removed₁)
    (h₂ : Shrunk s₁ s' kern root tree₁ tree' removed₂) :
    Shrunk s s' kern root tree tree' (removed₁ ++ removed₂) where
  owns := h₂.owns
  mem := by
    intro t i
    rcases h₂.mem t i with hsame | ⟨hhas, hzero⟩
    · rw [hsame]
      exact h₁.mem t i
    · exact .inr ⟨((h₁.has t).mp hhas).1, hzero⟩
  has := by
    intro b
    rw [h₂.has, h₁.has, List.mem_append, not_or, and_assoc]
  was := by
    intro a ha
    rcases List.mem_append.mp ha with ha | ha
    · exact h₁.was a ha
    · exact ((h₁.has a).mp (h₂.was a ha)).1
  free := by
    intro a
    rw [h₂.free, h₁.free, List.mem_append, or_assoc]
  used := by
    intro a
    rw [h₂.used, h₁.used, List.mem_append, not_or, and_assoc]
  listed := by
    rw [h₂.listed, h₁.listed, List.diff_append]

theorem unmapUserPage_eq (hphys : tree.node (path virt) = some phys) :
    ∃ leaf, tree.node ((path virt).take 3) = some leaf ∧ s.unmapUserPage root virt =
      (some phys, ⟨s.mem.setEntry leaf (tableIndex 0 virt) 0, s.pmm,
        s.allocatedFrames.erase phys⟩) := by
  have hclosed : (tree.node ((path virt).take 3)).isSome :=
    tree.closed _ (tableIndex 0 virt) (by rw [← path_eq, hphys]; rfl)
  obtain ⟨leaf, hleaf⟩ := Option.isSome_iff_exists.mp hclosed
  have hfind : findTable s.mem virt 3 root = some leaf :=
    (findTable_eq h hpriv (Nat.le_refl 3) h.rep.atRoot).trans hleaf
  obtain ⟨writable, hentry⟩ : ∃ writable, s.mem leaf (tableIndex 0 virt) =
      makeEntry phys (pageFlags writable) := by
    have hentry := h.rep.entry _ leaf (tableIndex 0 virt) hleaf (by simp [path]) hpriv
    rw [← path_eq, hphys] at hentry
    exact hentry
  have hpresent : isPresent (makeEntry phys (pageFlags writable)) = true := by
    rw [isPresent_makeEntry]
    cases writable <;> decide
  have haddr : entryAddr (makeEntry phys (pageFlags writable)) = phys :=
    entryAddr_makeEntry (h.isFrame ⟨_, hphys⟩) _
  refine ⟨leaf, hleaf, ?_⟩
  simp only [PageState.unmapUserPage, hfind, hentry, hpresent, if_true, haddr]

theorem unmapUserPage_of_some (hphys : tree.node (path virt) = some phys) :
    ∃ s' tree', s.unmapUserPage root virt = (some phys, s') ∧
      Shrunk s { s' with pmm := (s'.pmm.freeFrame phys).2 } kern root tree tree' [phys] := by
  obtain ⟨leaf, hleaf, heq⟩ := unmapUserPage_eq h hpriv hphys
  have hfreed := freeFrame_spec s.pmm phys
  have hrep := h.prune_page hleaf hpriv
  have hhas : ∀ b, (tree.prune ((path virt).take 3 ++ [tableIndex 0 virt])
      (path_leaf h virt)).Has b ↔ tree.Has b ∧ b ≠ phys := fun b => prune_has hphys b
  refine ⟨_, _, heq, ⟨⟨hrep, ?_⟩, ?_, ?_, ?_, ?_, ?_, ?_⟩⟩
  · intro a ha
    rw [hhas] at ha
    exact (hfreed.used_iff a).mpr ⟨h.used a ha.1, ha.2⟩
  · intro t i
    simp only [Mem.setEntry]
    split
    · rename_i hslot
      exact .inr ⟨⟨_, hslot.1 ▸ hleaf⟩, rfl⟩
    · exact .inl rfl
  · simpa using hhas
  · simpa using ⟨_, hphys⟩
  · intro a
    rw [hfreed.free_iff, List.mem_singleton]
    refine or_congr_right (and_iff_left ?_)
    exact h.used phys ⟨_, hphys⟩
  · simpa using hfreed.used_iff
  · simp

theorem unmapUserPage_of_none
    (hnone : tree.node (path virt) = none) : s.unmapUserPage root virt = (none, s) := by
  refine unmapUserPage_of_not_mapped ?_
  rw [pageMapped, findTable_eq h hpriv (Nat.le_refl 3) h.rep.atRoot]
  cases hleaf : tree.node ((path virt).take 3) with
  | none => rfl
  | some leaf =>
    have hentry := h.rep.entry _ leaf (tableIndex 0 virt) hleaf (by simp [path]) hpriv
    rw [← path_eq, hnone] at hentry
    exact hentry

omit hpriv in
theorem unmapPages_spec {pages curr : Nat}
    (hpages : ∀ i < pages, kern.Private (curr + i * pageSize) ∨
      pageMapped s.mem root (curr + i * pageSize) = false) :
    ∃ tree' removed, Shrunk s (PageState.unmapPages root pages curr s) kern root tree tree'
      removed := by
  induction pages generalizing curr s tree with
  | zero => exact ⟨tree, [], Shrunk.refl h⟩
  | succ pages ih =>
    have hnext : ∀ {s' : PageState}, (∀ t i, s'.mem t i = s.mem t i ∨ s'.mem t i = 0) →
        ∀ i < pages, kern.Private (curr + pageSize + i * pageSize) ∨
          pageMapped s'.mem root (curr + pageSize + i * pageSize) = false := by
      intro s' hcleared i hi
      have hpage := hpages (i + 1) (by omega)
      have haddr : curr + (i + 1) * pageSize = curr + pageSize + i * pageSize := by
        grind
      rw [haddr] at hpage
      exact hpage.imp_right (pageMapped_of_cleared hcleared)
    have hnone : s.unmapUserPage root curr = (none, s) →
        ∃ tree' removed, Shrunk s (PageState.unmapPages root (pages + 1) curr s) kern root tree
          tree' removed := by
      intro heq
      simp only [PageState.unmapPages, heq]
      exact ih h (hnext fun t i => .inl rfl)
    rcases hpages 0 (by omega) with hpriv | hnot
    · rw [Nat.zero_mul, Nat.add_zero] at hpriv
      cases hphys : tree.node (path curr) with
      | none => exact hnone (unmapUserPage_of_none h hpriv hphys)
      | some phys =>
        obtain ⟨s₁, tree₁, heq, hshrunk⟩ := unmapUserPage_of_some h hpriv hphys
        obtain ⟨tree', removed, hrest⟩ := ih hshrunk.owns
          (hnext fun t i => (hshrunk.mem t i).imp_right And.right)
        simp only [PageState.unmapPages, heq]
        exact ⟨tree', _, hshrunk.trans hrest⟩
    · rw [Nat.zero_mul, Nat.add_zero] at hnot
      exact hnone (unmapUserPage_of_not_mapped hnot)

end Pages

end AuraOS.UserSpace
