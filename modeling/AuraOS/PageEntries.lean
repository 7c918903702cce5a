import AuraOS.DemandFaults

namespace AuraOS.UserSpace

open PathTrees PhysicalFrames PageTables VirtualAreas

variable {v w level table leaf a phys t curr pages : Nat} {entry : BitVec 64} {mem : Mem}
  {pmm : Pmm} {tree₁ : TableTree}

def pte (mem : Mem) (root virt : Nat) : Option (BitVec 64) :=
  (walk mem virt 3 root).bind fun found => found.2.getLast?

def pageFrame (mem : Mem) (root virt : Nat) : Option Nat :=
  (pte mem root virt).map entryAddr

def presentEntry (entry : BitVec 64) : Option (BitVec 64) :=
  if isPresent entry then some entry else none

section Paths

theorem path_congr (h : v / pageSize = w / pageSize) : path v = path w := by
  have hindex : ∀ level, tableIndex level v = tableIndex level w := by
    intro level
    rw [← tableIndex_alignDownPage, ← tableIndex_alignDownPage level w, alignDownPage,
      alignDownPage, h]
  simp only [path, hindex]

theorem path_inj (hv : v < 2 ^ 48) (hw : w < 2 ^ 48) :
    path v = path w ↔ v / pageSize = w / pageSize := by
  refine ⟨fun h => ?_, path_congr⟩
  have hindex : ∀ level, tableIndex level v = tableIndex level w →
      v / 2 ^ (12 + 9 * level) % 512 = w / 2 ^ (12 + 9 * level) % 512 :=
    fun level heq => congrArg Fin.val heq
  simp only [path, List.cons.injEq, and_true] at h
  obtain ⟨h3, h2, h1, h0⟩ := h
  replace h3 := hindex 3 h3
  replace h2 := hindex 2 h2
  replace h1 := hindex 1 h1
  replace h0 := hindex 0 h0
  grind

end Paths

section Entries

variable {s s' : PageState} {kern : KernelTables} {root virt : Nat} {tree tree' : TableTree}

variable (h : OwnsPages s kern root tree) (hpriv : kern.Private virt)
include h hpriv

/-- The walk to a private page goes through the tree's tables to an entry of its page
table, in every memory that agrees on the entries for tables. -/
theorem walk_along (hlevel : level ≤ 3)
    (ht : tree.node ((path virt).take (3 - level)) = some table) :
    ∃ upper : List (BitVec 64), upper.length = level ∧
      (∀ entry ∈ upper, ∃ a, entry = makeEntry a tableFlags) ∧
      ∀ mem : Mem, (∀ l, 0 < l → l ≤ level → ∀ t, tree.node ((path virt).take (3 - l)) = some t →
          mem t (tableIndex l virt) = s.mem t (tableIndex l virt)) →
        walk mem virt level table = ((tree.node ((path virt).take 3)).bind
          fun leaf => presentEntry (mem leaf (tableIndex 0 virt))).map
            fun entry => (leafFrame 0 entry virt, upper ++ [entry]) := by
  induction level generalizing table with
  | zero =>
    refine ⟨[], rfl, by simp, fun mem _ => ?_⟩
    rw [ht, walk]
    simp only [Option.bind_some, presentEntry, List.nil_append]
    split <;> rfl
  | succ level ih =>
    rcases entry_above h hpriv hlevel ht with ⟨next, hnode, hentry, haddr⟩ | ⟨-, hnone, hentry⟩
    · obtain ⟨upper, hlength, htables, hwalk⟩ := ih (by omega) hnode
      refine ⟨makeEntry next tableFlags :: upper, by rw [List.length_cons, hlength], ?_,
        fun mem hmem => ?_⟩
      · intro entry hmem
        rcases List.mem_cons.mp hmem with rfl | hmem
        · exact ⟨next, rfl⟩
        · exact htables entry hmem
      · have hsame := hmem (level + 1) (Nat.succ_pos level) le_rfl table ht
        rw [walk, hsame, hentry, if_pos (isPresent_tableEntry next), isLeaf_tableEntry, haddr,
          hwalk mem fun l hl hle => hmem l hl (Nat.le_succ_of_le hle)]
        simp only [Bool.false_eq_true, if_false, Option.map_map]
        rfl
    · refine ⟨List.replicate (level + 1) (makeEntry 0 tableFlags), List.length_replicate,
        fun entry hmem => ⟨0, List.eq_of_mem_replicate hmem⟩, fun mem hmem => ?_⟩
      have hsame := hmem (level + 1) (Nat.succ_pos level) le_rfl table ht
      rw [hnone, walk, hsame, if_neg (by simp [hentry])]
      rfl

theorem walk_eq :
    ∃ upper : List (BitVec 64), (∀ entry ∈ upper, ∃ a, entry = makeEntry a tableFlags) ∧
      walk s.mem virt 3 root = ((tree.node ((path virt).take 3)).bind
        fun leaf => presentEntry (s.mem leaf (tableIndex 0 virt))).map
          fun entry => (leafFrame 0 entry virt, upper ++ [entry]) := by
  obtain ⟨upper, -, htables, hwalk⟩ := walk_along h hpriv (Nat.le_refl 3) h.rep.atRoot
  exact ⟨upper, htables, hwalk s.mem fun _ _ _ _ _ => rfl⟩

theorem pte_eq :
    pte s.mem root virt = (tree.node ((path virt).take 3)).bind
      fun leaf => presentEntry (s.mem leaf (tableIndex 0 virt)) := by
  obtain ⟨upper, -, hwalk⟩ := walk_eq h hpriv
  rw [pte, hwalk, Option.bind_map]
  simp only [Function.comp_def, List.getLast?_concat]
  exact Option.bind_fun_some _

theorem pte_of_leaf (hleaf : tree.node ((path virt).take 3) = some leaf) :
    pte s.mem root virt = presentEntry (s.mem leaf (tableIndex 0 virt)) := by
  rw [pte_eq h hpriv, hleaf, Option.bind_some]

omit h hpriv in
theorem leaf_of_node (tree : TableTree) (ha : tree.node (path virt) = some a) :
    ∃ leaf, tree.node ((path virt).take 3) = some leaf :=
  Option.isSome_iff_exists.mp (tree.closed _ (tableIndex 0 virt) (by rw [← path_eq, ha]; rfl))

theorem pte_of_node (ha : tree.node (path virt) = some a) :
    ∃ writable, pte s.mem root virt = some (makeEntry a (pageFlags writable)) := by
  obtain ⟨leaf, hleaf⟩ := leaf_of_node tree ha
  have hentry := h.rep.entry _ leaf (tableIndex 0 virt) hleaf (by simp [path]) hpriv
  rw [← path_eq, ha] at hentry
  obtain ⟨writable, hentry⟩ : ∃ writable, s.mem leaf (tableIndex 0 virt) =
    makeEntry a (pageFlags writable) := hentry
  refine ⟨writable, ?_⟩
  rw [pte_of_leaf h hpriv hleaf, hentry, presentEntry, if_pos (isPresent_pageEntry a writable)]

theorem pte_of_absent (hnone : tree.node (path virt) = none) : pte s.mem root virt = none := by
  rw [pte_eq h hpriv]
  cases hleaf : tree.node ((path virt).take 3) with
  | none => rfl
  | some leaf =>
    have hentry := h.rep.entry _ leaf (tableIndex 0 virt) hleaf (by simp [path]) hpriv
    rw [← path_eq, hnone] at hentry
    have habsent : isPresent (s.mem leaf (tableIndex 0 virt)) = false := hentry
    rw [Option.bind_some, presentEntry, if_neg (by simp [habsent])]

theorem node_of_pte (hentry : pte s.mem root virt = some entry) :
    tree.node (path virt) = some (entryAddr entry) := by
  cases hnode : tree.node (path virt) with
  | none =>
    rw [pte_of_absent h hpriv hnode] at hentry
    cases hentry
  | some a =>
    obtain ⟨writable, hpte⟩ := pte_of_node h hpriv hnode
    rw [hpte] at hentry
    cases hentry
    rw [entryAddr_makeEntry (h.isFrame ⟨_, hnode⟩)]

omit h hpriv in
theorem writable_pageEntry (frame : Nat) (write : Bool) :
    hasFlag (makeEntry frame (pageFlags write)) PageTables.writable = write := by
  rw [hasFlag_makeEntry (by decide) (by decide)]
  cases write <;> decide

omit h hpriv in
theorem translate_of_walk {upper : List (BitVec 64)} {writable : Bool} (hframe : IsFrame phys)
    (htables : ∀ entry ∈ upper, ∃ a, entry = makeEntry a tableFlags)
    (hwalk : walk mem virt 3 root = some (leafFrame 0 (makeEntry phys (pageFlags writable)) virt,
      upper ++ [makeEntry phys (pageFlags writable)])) :
    translate mem root virt = some ⟨phys, writable, true, false⟩ := by
  have hupper : ∀ flag, flag = PageTables.writable ∨ flag = userAccessible →
      upper.all (hasFlag · flag) = true := by
    intro flag hflag
    rw [List.all_eq_true]
    intro entry hentry
    obtain ⟨b, rfl⟩ := htables entry hentry
    rcases hflag with rfl | rfl <;> rw [hasFlag_makeEntry (by decide) (by decide)] <;> decide
  have hexecute : upper.any (hasFlag · PageTables.noExecute) = false := by
    rw [List.any_eq_false]
    intro entry hentry
    obtain ⟨b, rfl⟩ := htables entry hentry
    rw [hasFlag_makeEntry (by decide) (by decide)]
    decide
  have huser : hasFlag (makeEntry phys (pageFlags writable)) userAccessible = true := by
    rw [hasFlag_makeEntry (by decide) (by decide)]
    cases writable <;> decide
  have hpageExecute : hasFlag (makeEntry phys (pageFlags writable)) PageTables.noExecute =
      false := by
    rw [hasFlag_makeEntry (by decide) (by decide)]
    cases writable <;> decide
  rw [PageTables.translate, hwalk]
  simp only [Option.map_some, List.all_append, List.all_cons, List.all_nil, List.any_append,
    List.any_cons, List.any_nil, hupper _ (.inl rfl), hupper _ (.inr rfl), hexecute, huser,
    hpageExecute, writable_pageEntry, leafFrame_pageEntry hframe, Bool.true_and, Bool.and_true,
    Bool.or_false]

/-- The processor's view of a private page: its frame, open to the user, and writable
if the page table entry says so. -/
theorem translate_eq :
    translate s.mem root virt = (pte s.mem root virt).map fun entry =>
      ⟨entryAddr entry, hasFlag entry PageTables.writable, true, false⟩ := by
  obtain ⟨upper, htables, hwalk⟩ := walk_eq h hpriv
  rw [← pte_eq h hpriv] at hwalk
  cases hnode : tree.node (path virt) with
  | none =>
    rw [pte_of_absent h hpriv hnode] at hwalk ⊢
    rw [PageTables.translate, hwalk]
    rfl
  | some a =>
    obtain ⟨writable, hpte⟩ := pte_of_node h hpriv hnode
    rw [hpte] at hwalk ⊢
    rw [translate_of_walk (h.isFrame ⟨_, hnode⟩) htables hwalk, Option.map_some,
      entryAddr_makeEntry (h.isFrame ⟨_, hnode⟩), writable_pageEntry]

end Entries

section Walks

variable {s s₁ : PageState} {kern : KernelTables} {root virt w : Nat} {tree tree₁ : TableTree}

theorem take_three_ne_path (v w : Nat) : (path v).take 3 ≠ path w := by
  intro heq
  have hlength := congrArg List.length heq
  simp [path] at hlength

theorem Filled.page (h : Filled tree tree₁ virt) (w : Nat) :
    tree₁.node (path w) = tree.node (path w) := by
  cases hw : tree.node (path w) with
  | some a => exact (h.kept _ (by simp [hw])).trans hw
  | none =>
    by_contra hsome
    rcases h.added _ (Option.ne_none_iff_isSome.mp hsome) with hold | ⟨d, hd, heq⟩
    · rw [hw] at hold
      cases hold
    · have hlength := congrArg List.length heq
      rw [length_take_path (by omega)] at hlength
      simp only [path, List.length_cons, List.length_nil] at hlength
      omega

variable (h : OwnsPages s kern root tree)
include h

theorem walk_of_absent (hpriv : kern.Private virt)
    (hnone : tree.node (path virt) = none) : walk s.mem virt 3 root = none := by
  obtain ⟨upper, -, hwalk⟩ := walk_eq h hpriv
  rw [hwalk, ← pte_eq h hpriv, pte_of_absent h hpriv hnone, Option.map_none]

theorem entry_of_table (hpriv : kern.Private virt) (hlow : 0 < level) (hhigh : level ≤ 3)
    {table next : Nat} (ht : tree.node ((path virt).take (3 - level)) = some table)
    (hnext : tree.node ((path virt).take (4 - level)) = some next) :
    s.mem table (tableIndex level virt) = makeEntry next tableFlags := by
  have hpath := path_take level hhigh virt
  have hlen : ((path virt).take (3 - level)).length = 3 - level := length_take_path (by omega) virt
  have hentry := h.rep.entry _ table (tableIndex level virt) ht (by omega)
    (hpath ▸ own_take virt hpriv _)
  rw [← hpath, hnext, hlen] at hentry
  simpa only [EntryFor, show 3 - level < 3 by omega, if_true] using hentry

theorem walk_same (hw : kern.Private w)
    (hmem : ∀ q t, tree.node q = some t → q.length < 4 → ∀ i, mem t i = s.mem t i) :
    walk mem w 3 root = walk s.mem w 3 root := by
  obtain ⟨upper, -, -, hwalk⟩ := walk_along h hw (Nat.le_refl 3) h.rep.atRoot
  rw [hwalk s.mem fun _ _ _ _ _ => rfl, hwalk mem fun l hl _ t ht => hmem _ t ht
    (by rw [length_take_path (by omega)]; omega) _]
  cases hleaf : tree.node ((path w).take 3) with
  | none => rfl
  | some leaf => rw [Option.bind_some, Option.bind_some, hmem _ leaf hleaf (by simp [path])]

/-- More tables on the way to a page change no walk: the way to a page that is there has
all its tables, and below a new table there is nothing. -/
theorem walk_of_filled (h₁ : OwnsPages s₁ kern root tree₁) (hfilled : Filled tree tree₁ virt)
    (hdeep : ∀ q t, tree.node q = some t → 3 ≤ q.length → ∀ i, s₁.mem t i = s.mem t i)
    (hw : kern.Private w) : walk s₁.mem w 3 root = walk s.mem w 3 root := by
  cases hnode : tree.node (path w) with
  | none => rw [walk_of_absent h hw hnode, walk_of_absent h₁ hw ((hfilled.page w).trans hnode)]
  | some a =>
    obtain ⟨leaf, hleaf⟩ := leaf_of_node tree hnode
    obtain ⟨upper, -, -, hwalk⟩ := walk_along h hw (Nat.le_refl 3) h.rep.atRoot
    have hupper : ∀ l, 0 < l → l ≤ 3 → ∀ t, tree.node ((path w).take (3 - l)) = some t →
        s₁.mem t (tableIndex l w) = s.mem t (tableIndex l w) := by
      intro l hlow hhigh t ht
      have hclosed := closed_take tree w (a := 4 - l) (b := 3) (by omega) (by simp [hleaf])
      obtain ⟨next, hnext⟩ := Option.isSome_iff_exists.mp hclosed
      rw [entry_of_table h hw hlow hhigh ht hnext, entry_of_table h₁ hw hlow hhigh
        ((hfilled.kept _ (by simp [ht])).trans ht) ((hfilled.kept _ hclosed).trans hnext)]
    rw [hwalk s₁.mem hupper, hwalk s.mem fun _ _ _ _ _ => rfl, hleaf, Option.bind_some,
      Option.bind_some, hdeep _ leaf hleaf (by simp [path])]

/-- Setting one entry of a page table: the walk to its page ends there, other walks to
private pages do not read it. -/
theorem walk_setEntry
    (hleaf : tree.node ((path virt).take 3) = some leaf) (entry : BitVec 64) (hw : kern.Private w) :
    ∃ upper : List (BitVec 64), upper.length = 3 ∧
      (∀ e ∈ upper, ∃ a, e = makeEntry a tableFlags) ∧
      walk (s.mem.setEntry leaf (tableIndex 0 virt) entry) w 3 root =
        if path w = path virt then
          (presentEntry entry).map fun e => (leafFrame 0 e w, upper ++ [e])
        else walk s.mem w 3 root := by
  obtain ⟨upper, hlength, htables, hwalk⟩ := walk_along h hw (Nat.le_refl 3) h.rep.atRoot
  have hupper : ∀ l, 0 < l → l ≤ 3 → ∀ t, tree.node ((path w).take (3 - l)) = some t →
      s.mem.setEntry leaf (tableIndex 0 virt) entry t (tableIndex l w) =
        s.mem t (tableIndex l w) := by
    intro l hlow hhigh t ht
    refine setEntry_of_ne ?_ _ _ _
    rintro rfl
    have hsame := congrArg List.length (tree.unique _ _ t ht hleaf)
    rw [length_take_path (by omega), length_take_path (by omega)] at hsame
    omega
  refine ⟨upper, hlength, htables, ?_⟩
  rw [hwalk _ hupper]
  split
  · rename_i hpath
    have hindex : tableIndex 0 w = tableIndex 0 virt := by
      simp only [path, List.cons.injEq] at hpath
      exact hpath.2.2.2.1
    rw [hpath, hleaf, Option.bind_some, hindex, setEntry_self]
  · rename_i hpath
    rw [hwalk s.mem fun _ _ _ _ _ => rfl]
    cases hown : tree.node ((path w).take 3) with
    | none => rfl
    | some leaf' =>
      rw [Option.bind_some, Option.bind_some, setEntry_apply, if_neg]
      rintro ⟨rfl, hindex⟩
      have hsame := tree.unique _ _ leaf' hown hleaf
      rw [path_eq w, path_eq virt, hsame, hindex] at hpath
      exact hpath rfl

end Walks

section Mapping

variable {s : PageState} {kern : KernelTables} {root virt : Nat} {tree : TableTree}

theorem OwnsPages.allocated (h : OwnsPages s kern root tree)
    (halloc : s.pmm.allocFrame = some (phys, pmm)) (hmem : ∀ t ≠ phys, ∀ i, mem t i = s.mem t i) :
    OwnsPages ⟨mem, pmm, s.allocatedFrames ++ [phys]⟩ kern root tree ∧ ¬ tree.Has phys := by
  have hspec := allocFrame_spec halloc
  have hfresh : ¬ tree.Has phys := fun ha => h.not_free ha hspec.free
  refine ⟨h.grow (grown_of_allocated hspec fun t _ hne => hmem t hne) fun t ht => hmem t ?_, hfresh⟩
  exact fun heq => hfresh (heq ▸ ht)

theorem pte_setEntry (h : OwnsPages s kern root tree)
    (hleaf : tree.node ((path virt).take 3) = some leaf) (entry : BitVec 64) (hw : kern.Private w) :
    pte (s.mem.setEntry leaf (tableIndex 0 virt) entry) root w =
      if path w = path virt then presentEntry entry else pte s.mem root w := by
  obtain ⟨upper, -, -, hwalk⟩ := walk_setEntry h hleaf entry hw
  rw [pte, hwalk]
  split
  · rw [Option.bind_map]
    simp only [Function.comp_def, List.getLast?_concat]
    exact Option.bind_fun_some _
  · rfl

/-- What mapping a page does to the pages of the space: `mem` is the memory before,
`filled` the memory with the frame prepared. -/
structure PageSet (mem filled after : Mem) (kern : KernelTables) (root virt : Nat)
    (entry : BitVec 64) : Prop where
  entries : ∀ w, kern.Private w →
    pte after root w = if path w = path virt then some entry else pte mem root w
  contents : ∀ w, kern.Private w → ∀ e, pte after root w = some e →
    ∀ i, after (entryAddr e) i = filled (entryAddr e) i

theorem mapUserPage_pages (h : OwnsPages s kern root tree) (hpriv : kern.Private virt)
    (halloc : s.pmm.allocFrame = some (phys, pmm)) (hmem : ∀ t ≠ phys, ∀ i, mem t i = s.mem t i)
    (writable : Bool) :
    let r := PageState.mapUserPage ⟨mem, pmm, s.allocatedFrames ++ [phys]⟩ root virt phys writable
    (r.1 = true →
      PageSet s.mem mem r.2.mem kern root virt (makeEntry phys (pageFlags writable))) ∧
      (r.1 = false → ∀ w, kern.Private w → pte r.2.mem root w = pte s.mem root w) := by
  obtain ⟨h₀, hfresh⟩ := h.allocated halloc hmem
  have hused : Pmm.UsedAt pmm phys := ((allocFrame_spec halloc).used_iff phys).mpr (.inr rfl)
  simp only [PageState.mapUserPage]
  cases hwalk : PageState.leafTable virt 3 root ⟨mem, pmm, s.allocatedFrames ++ [phys]⟩ with
  | mk found s₁ =>
  obtain ⟨tree₁, tables, h₁, hgrown, hhas, hfilled, hdeep, houtcome⟩ :=
    leafTable_spec hpriv (Nat.le_refl 3) h₀ h₀.rep.atRoot
  rw [hwalk] at h₁ hgrown houtcome hdeep
  have hnew : phys ∉ tables := fun hb => hused.not_freeAt (hgrown.fresh phys hb)
  have hfresh₁ : ¬ tree₁.Has phys := fun hb => ((hhas phys).mp hb).elim hfresh hnew
  have hwalked : ∀ w, kern.Private w → pte s₁.mem root w = pte s.mem root w := by
    intro w hw
    have hprepared := walk_same h hw fun q t ht _ => hmem t fun heq => hfresh ⟨q, heq ▸ ht⟩
    rw [pte, pte, walk_of_filled h₀ h₁ hfilled hdeep hw, hprepared]
  have hcontents : ∀ w a, tree.node (path w) = some a → ∀ i, s₁.mem a i = mem a i :=
    fun w a hw => hdeep (path w) a hw (by simp [path])
  rcases houtcome with ⟨leaf, rfl, hat, -⟩ | ⟨rfl, -, -⟩
  · obtain ⟨tree', h', hself, hothers, -⟩ := setPage_spec h₁ hpriv hat hfresh₁
      ((hgrown.used phys).mpr (.inl hused)) writable
    refine ⟨fun _ => ⟨fun w hw => ?_, fun w hw e he i => ?_⟩, by rintro ⟨⟩⟩
    · have hset := pte_setEntry h₁ hat (makeEntry phys (pageFlags writable)) hw
      rw [hwalked w hw, presentEntry, if_pos (isPresent_pageEntry phys writable)] at hset
      exact hset
    · have hnode := node_of_pte h' hw he
      have hne : entryAddr e ≠ leaf := by
        intro heq
        have hat' := (hothers _ (take_three_ne_path virt virt)).trans hat
        exact take_three_ne_path virt w (tree'.unique _ _ leaf hat' (heq ▸ hnode))
      simp only [setEntry_of_ne hne]
      by_cases hpath : path w = path virt
      · rw [hpath, hself] at hnode
        rw [← Option.some.inj hnode]
        exact hgrown.mem phys hfresh hnew i
      · rw [hothers _ hpath, hfilled.page] at hnode
        exact hcontents w _ hnode i
  · exact ⟨by rintro ⟨⟩, fun _ => hwalked⟩

end Mapping

section Unmapping

variable {s : PageState} {kern : KernelTables} {root virt : Nat} {tree : TableTree}

variable (h : OwnsPages s kern root tree)
include h

theorem unmapUserPage_pages (hpriv : kern.Private virt) (hw : kern.Private w) :
    pte (s.unmapUserPage root virt).2.mem root w =
      if path w = path virt then none else pte s.mem root w := by
  cases hphys : tree.node (path virt) with
  | none =>
    rw [unmapUserPage_of_none h hpriv hphys]
    split
    · rename_i hpath
      exact pte_of_absent h hw (hpath ▸ hphys)
    · rfl
  | some phys =>
    obtain ⟨leaf, hleaf, heq⟩ := unmapUserPage_eq h hpriv hphys
    rw [heq]
    exact pte_setEntry h hleaf 0 hw

theorem pageFrame_eq (hpriv : kern.Private virt) :
    pageFrame s.mem root virt = tree.node (path virt) := by
  cases hentry : pte s.mem root virt with
  | none =>
    rw [pageFrame, hentry, Option.map_none]
    cases hnode : tree.node (path virt) with
    | none => rfl
    | some a =>
      obtain ⟨writable, hsome⟩ := pte_of_node h hpriv hnode
      rw [hentry] at hsome
      cases hsome
  | some entry => rw [pageFrame, hentry, node_of_pte h hpriv hentry, Option.map_some]

theorem unmapPages_step (hpriv : kern.Private curr) (pages : Nat) :
    ∃ s₁ tree₁, OwnsPages s₁ kern root tree₁ ∧
      s₁.mem = (s.unmapUserPage root curr).2.mem ∧
      (∀ a, s₁.pmm.FreeAt a ↔ s.pmm.FreeAt a ∨ pageFrame s.mem root curr = some a) ∧
      PageState.unmapPages root (pages + 1) curr s =
        PageState.unmapPages root pages (curr + pageSize) s₁ := by
  rw [pageFrame_eq h hpriv]
  cases hphys : tree.node (path curr) with
  | none =>
    have heq := unmapUserPage_of_none h hpriv hphys
    refine ⟨s, tree, h, by rw [heq], fun a => ?_, by simp only [PageState.unmapPages, heq]⟩
    exact (or_iff_left (by rintro ⟨⟩)).symm
  | some phys =>
    obtain ⟨s₁, tree₁, heq, hshrunk⟩ := unmapUserPage_of_some h hpriv hphys
    refine ⟨_, tree₁, hshrunk.owns, by rw [heq], fun a => ?_,
      by simp only [PageState.unmapPages, heq]⟩
    rw [hshrunk.free, List.mem_singleton, Option.some.injEq, eq_comm]

omit h in
theorem private_next (hpages : ∀ i < pages + 1, kern.Private (curr + i * pageSize)) :
    kern.Private curr ∧ ∀ i < pages, kern.Private (curr + pageSize + i * pageSize) := by
  constructor
  · have hfirst := hpages 0 (Nat.succ_pos pages)
    rwa [Nat.zero_mul, Nat.add_zero] at hfirst
  · intro i hi
    have hpage := hpages (i + 1) (Nat.succ_lt_succ hi)
    rwa [Nat.succ_mul, Nat.add_comm (i * pageSize), ← Nat.add_assoc] at hpage

omit h in
theorem exists_page_succ {P : Nat → Prop} :
    (∃ i < pages + 1, P (curr + i * pageSize)) ↔
      P curr ∨ ∃ i < pages, P (curr + pageSize + i * pageSize) := by
  have hpage : ∀ i, curr + (i + 1) * pageSize = curr + pageSize + i * pageSize := by
    intro i
    grind
  constructor
  · rintro ⟨i, hi, hp⟩
    cases i with
    | zero =>
      exact .inl hp
    | succ i => exact .inr ⟨i, Nat.lt_of_succ_lt_succ hi, hpage i ▸ hp⟩
  · rintro (hp | ⟨i, hi, hp⟩)
    · refine ⟨0, Nat.succ_pos pages, ?_⟩
      rwa [Nat.zero_mul, Nat.add_zero]
    · exact ⟨i + 1, Nat.succ_lt_succ hi, (hpage i).symm ▸ hp⟩

theorem unmapPages_pages (hpages : ∀ i < pages, kern.Private (curr + i * pageSize)) :
    (∀ w, kern.Private w → pte (PageState.unmapPages root pages curr s).mem root w =
      if ∃ i < pages, path w = path (curr + i * pageSize) then none else pte s.mem root w) ∧
    ∀ a, (PageState.unmapPages root pages curr s).pmm.FreeAt a ↔
      s.pmm.FreeAt a ∨ ∃ i < pages, pageFrame s.mem root (curr + i * pageSize) = some a := by
  induction pages generalizing curr s tree with
  | zero =>
    have hnone {P : Nat → Prop} : ¬ ∃ i < 0, P i := fun ⟨i, hi, _⟩ => Nat.not_lt_zero i hi
    exact ⟨fun w _ => (if_neg hnone).symm, fun a => (or_iff_left hnone).symm⟩
  | succ pages ih =>
    obtain ⟨hpriv, hnext⟩ := private_next hpages
    obtain ⟨s₁, tree₁, h₁, hmem, hfree, heq⟩ := unmapPages_step h hpriv pages
    obtain ⟨hentries, hfreed⟩ := ih h₁ hnext
    rw [heq]
    refine ⟨fun w hw => ?_, fun a => ?_⟩
    · rw [hentries w hw, hmem, unmapUserPage_pages h hpriv hw, ← ite_or]
      refine if_congr ?_ rfl rfl
      rw [exists_page_succ (P := fun v => path w = path v), or_comm]
    · rw [hfreed, hfree, exists_page_succ (P := fun v => pageFrame s.mem root v = some a),
        or_assoc, hmem]
      -- a later page at the path of the first is gone, but the first counted its frame
      have hlater : ∀ i < pages, pageFrame (s.unmapUserPage root curr).2.mem root
          (curr + pageSize + i * pageSize) = if path (curr + pageSize + i * pageSize) = path curr
            then none else pageFrame s.mem root (curr + pageSize + i * pageSize) := by
        intro i hi
        rw [pageFrame, unmapUserPage_pages h hpriv (hnext i hi)]
        split <;> rfl
      refine or_congr_right ⟨Or.imp_right ?_, ?_⟩
      · rintro ⟨i, hi, hframe⟩
        rw [hlater i hi] at hframe
        split at hframe
        · cases hframe
        · exact ⟨i, hi, hframe⟩
      · rintro (hfirst | ⟨i, hi, hframe⟩)
        · exact .inl hfirst
        · by_cases hpath : path (curr + pageSize + i * pageSize) = path curr
          · rw [pageFrame_eq h (hnext i hi), hpath, ← pageFrame_eq h hpriv] at hframe
            exact .inl hframe
          · refine .inr ⟨i, hi, ?_⟩
            rw [hlater i hi, if_neg hpath]
            exact hframe

end Unmapping

end AuraOS.UserSpace
