import AuraOS.AddressIsolation
import AuraOS.PageEntries

namespace AuraOS.UserSpace

open GuardedRuns PathTrees PhysicalFrames PageTables VirtualAreas

variable {level leaf root virt phys kernelCr3 : Nat} {mem mem' : Mem} {kern : KernelTables}

/-- `virt_to_phys`, under the root table that CR3 holds. -/
def virtToPhys (mem : Mem) (cr3 virt : Nat) : Option Nat :=
  let p4e := mem cr3 (tableIndex 3 virt)
  if !isPresent p4e then none
  else
    let p3e := mem (entryAddr p4e) (tableIndex 2 virt)
    if !isPresent p3e then none
    else if hasFlag (entryFlags p3e) hugePage then some (entryAddr p3e ||| (virt &&& 0x3FFFFFFF))
    else
      let p2e := mem (entryAddr p3e) (tableIndex 1 virt)
      if !isPresent p2e then none
      else if hasFlag (entryFlags p2e) hugePage then some (entryAddr p2e ||| (virt &&& 0x1FFFFF))
      else
        let p1e := mem (entryAddr p2e) (tableIndex 0 virt)
        if !isPresent p1e then none else some (entryAddr p1e ||| (virt &&& 0xFFF))

section Walks

/-- The address that the entries of a walk give: the shorter the walk, the larger the page. -/
def physAddr (entries : List (BitVec 64)) (virt : Nat) : Nat :=
  entryAddr (entries.getLastD 0) ||| virt % 2 ^ (48 - 9 * entries.length)

theorem isLeaf_middle (hlow : 0 < level) (hhigh : level ≤ 2) (entry : BitVec 64) :
    isLeaf level entry = hasFlag entry hugePage := by
  rw [isLeaf, decide_eq_false (Nat.ne_of_gt hlow), decide_eq_true hhigh, Bool.false_or,
    Bool.true_and]

theorem virtToPhys_eq (mem : Mem) (cr3 virt : Nat) :
    virtToPhys mem cr3 virt = (walk mem virt 3 cr3).map fun found => physAddr found.2 virt := by
  have hflags : flagsMask &&& hugePage = hugePage := by decide
  have hgiant : virt &&& 0x3FFFFFFF = virt % 2 ^ 30 := Nat.and_two_pow_sub_one_eq_mod virt 30
  have hlarge : virt &&& 0x1FFFFF = virt % 2 ^ 21 := Nat.and_two_pow_sub_one_eq_mod virt 21
  have hsmall : virt &&& 0xFFF = virt % 2 ^ 12 := Nat.and_two_pow_sub_one_eq_mod virt 12
  simp only [virtToPhys, walk, Nat.reduceAdd, isLeaf_top, isLeaf_middle Nat.two_pos (Nat.le_refl 2),
    isLeaf_middle Nat.one_pos (Nat.le_succ 1), hasFlag_entryFlags hflags, Bool.false_eq_true,
      if_false,
    hgiant, hlarge, hsmall]
  cases isPresent (mem cr3 (tableIndex 3 virt)) with
  | false => rfl
  | true =>
  generalize entryAddr (mem cr3 (tableIndex 3 virt)) = pdpt
  cases isPresent (mem pdpt (tableIndex 2 virt)) with
  | false => rfl
  | true =>
  cases hasFlag (mem pdpt (tableIndex 2 virt)) hugePage with
  | true => rfl
  | false =>
  generalize entryAddr (mem pdpt (tableIndex 2 virt)) = pd
  cases isPresent (mem pd (tableIndex 1 virt)) with
  | false => rfl
  | true =>
  cases hasFlag (mem pd (tableIndex 1 virt)) hugePage with
  | true => rfl
  | false =>
  generalize entryAddr (mem pd (tableIndex 1 virt)) = pt
  cases isPresent (mem pt (tableIndex 0 virt)) with
  | false => rfl
  | true => rfl

end Walks

section Kernel

variable {s s₁ : PageState} {kern : KernelTables} {root kernelCr3 virt w : Nat}
  {tree tree₁ : TableTree}

structure KernelApart (s : PageState) (kern : KernelTables) (kernelCr3 : Nat) (tree : TableTree) :
    Prop where
  root : KernelRoot s.mem s.pmm kern kernelCr3
  tables : ∀ virt, ∀ t ∈ walkTables s.mem virt 3 kernelCr3, ¬ s.pmm.FreeAt t ∧ ¬ tree.Has t

theorem KernelApart.same_tables (h : KernelApart s kern kernelCr3 tree)
    (hconfined : Confined s s₁ kern root tree tree₁) (virt : Nat) :
    ∀ t ∈ walkTables s.mem virt 3 kernelCr3, ∀ i, s₁.mem t i = s.mem t i := by
  intro t ht
  obtain ⟨hfree, hown⟩ := h.tables virt t ht
  exact hconfined.mem t hown hfree

theorem KernelApart.confined (h : KernelApart s kern kernelCr3 tree)
    (hconfined : Confined s s₁ kern root tree tree₁) : KernelApart s₁ kern kernelCr3 tree₁ where
  root := by
    have hwithin : Within tree.Has s.mem s.pmm s₁.mem s₁.pmm :=
      ⟨hconfined.mem, hconfined.used, hconfined.free⟩
    exact hwithin.kernelRoot h.root (h.tables 0 _ (pml4_mem_walkTables s.mem 0)).2
      (h.tables 0 _ h.root.pdpt_mem).2
  tables := by
    intro virt t ht
    rw [walkTables_congr 3 kernelCr3 (h.same_tables hconfined virt)] at ht
    obtain ⟨hfree, hown⟩ := h.tables virt t ht
    exact ⟨fun hfree' => (hconfined.free t hfree').elim hfree hown,
      fun hown' => (hconfined.has t hown').elim hown hfree⟩

/-- A walk to a page that is not private: the entries of the kernel that the space has
copied, and below them the kernel's tables. -/
theorem walk_shared (h : OwnsPages s kern root tree)
    (hkernel : KernelRoot s.mem s.pmm kern kernelCr3) (hw : ¬ kern.Private w)
    (hroot : mem root (tableIndex 3 w) = s.mem root (tableIndex 3 w))
    (hpdpt : tableIndex 3 w = 0 → ∀ pdpt, tree.node [0] = some pdpt →
      mem pdpt (tableIndex 2 w) = s.mem pdpt (tableIndex 2 w))
    (htables : ∀ t ∈ walkTables s.mem w 3 kernelCr3, ∀ i, mem t i = s.mem t i) :
    walk mem w 3 root = walk s.mem w 3 root := by
  obtain ⟨hpml4, hpresent⟩ := present_of_not_private hw
  rw [walkTables_kernel hkernel hpml4, List.forall_mem_cons] at htables
  have hbelow := walk_congr 2 _ htables.2
  by_cases hzero : tableIndex 3 w = 0
  · obtain ⟨pdpt, hnode, hentry, haddr⟩ := exists_pdpt h
    have hshared := h.rep.sharedPdpt pdpt (tableIndex 2 w) hnode (hpresent hzero)
    have htop : isPresent (s.mem root (tableIndex 3 w)) = true := by
      rw [hzero, hentry]
      exact isPresent_tableEntry pdpt
    have hkernelEntry : s.mem (entryAddr (kern.pml4 (tableIndex 3 w))) (tableIndex 2 w) =
        s.mem pdpt (tableIndex 2 w) := by
      rw [hzero, hkernel.pdpt, hshared]
    have hfirst : entryAddr (kern.pml4 (tableIndex 3 w)) ∈
        walkTables s.mem w 2 (entryAddr (kern.pml4 (tableIndex 3 w))) := by
      exact .head _
    have hsame : walk mem w 2 pdpt = walk s.mem w 2 pdpt := by
      rw [walk_eq_of_entry hkernelEntry.symm, ← hbelow]
      refine walk_eq_of_entry ?_
      rw [hpdpt hzero pdpt hnode, htables.2 _ hfirst, hkernelEntry]
    rw [walk_top (hroot ▸ htop), walk_top htop, hroot, hzero, hentry, haddr, hsame]
  · have hshared := h.rep.sharedRoot (tableIndex 3 w) hzero hpml4
    rw [walk_top (by rw [hroot, hshared]; exact hpml4), walk_top (hshared ▸ hpml4), hroot, hshared,
      hbelow]

end Kernel

section Mapping

variable {s : PageState} {kern : KernelTables} {root kernelCr3 virt : Nat} {tree : TableTree}

variable (h : OwnsPages s kern root tree) (hapart : KernelApart s kern kernelCr3 tree)
include h hapart

theorem leafTable_walk (hpriv : kern.Private virt) (w : Nat) :
    walk (PageState.leafTable virt 3 root s).2.mem w 3 root = walk s.mem w 3 root := by
  obtain ⟨tree₁, tables, h₁, hgrown, hhas, hfilled, hdeep, -⟩ :=
    leafTable_spec hpriv (Nat.le_refl 3) h h.rep.atRoot
  by_cases hw : kern.Private w
  · exact walk_of_filled h h₁ hfilled hdeep hw
  · obtain ⟨hpml4, hpresent⟩ := present_of_not_private hw
    obtain ⟨pdpt, hnode, hentry, -⟩ := exists_pdpt h
    obtain ⟨pdpt₁, hnode₁, hentry₁, -⟩ := exists_pdpt h₁
    have hkept : tree₁.node [0] = tree.node [0] := hfilled.kept _ (by simp [hnode])
    rw [hkept, hnode, Option.some.injEq] at hnode₁
    refine walk_shared h hapart.root hw ?_ ?_ ?_
    · by_cases hzero : tableIndex 3 w = 0
      · rw [hzero, hentry, hentry₁, hnode₁]
      · rw [h.rep.sharedRoot _ hzero hpml4, h₁.rep.sharedRoot _ hzero hpml4]
    · intro hzero table htable
      rw [h.rep.sharedPdpt table _ htable (hpresent hzero),
        h₁.rep.sharedPdpt table _ (hkept.trans htable) (hpresent hzero)]
    · exact hapart.same_tables (hgrown.confined h₁ fun b hb => (hhas b).mp hb) w

theorem walk_setPage (hpriv : kern.Private virt)
    (hleaf : tree.node ((path virt).take 3) = some leaf) (entry : BitVec 64) (w : Nat) :
    ∃ upper : List (BitVec 64), upper.length = 3 ∧
      (∀ e ∈ upper, ∃ a, e = makeEntry a tableFlags) ∧
      walk (s.mem.setEntry leaf (tableIndex 0 virt) entry) w 3 root =
        if path w = path virt then
          (presentEntry entry).map fun e => (leafFrame 0 e w, upper ++ [e])
        else walk s.mem w 3 root := by
  by_cases hw : kern.Private w
  · exact walk_setEntry h hleaf entry hw
  · have hpath : path w ≠ path virt := fun heq => hw (private_of_path heq hpriv)
    -- the page table is neither of the space's first two tables, nor one of the kernel's
    have hupper : ∀ q t, tree.node q = some t → q.length < 3 → t ≠ leaf := by
      rintro q t ht hlen rfl
      rw [tree.unique _ _ t ht hleaf, length_take_path (by omega)] at hlen
      omega
    refine ⟨List.replicate 3 (makeEntry 0 tableFlags), List.length_replicate,
      fun e he => ⟨0, List.eq_of_mem_replicate he⟩, ?_⟩
    rw [if_neg hpath]
    refine walk_shared h hapart.root hw ?_ ?_ ?_
    · exact setEntry_of_ne (hupper [] root h.rep.atRoot (by decide)) _ _ _
    · exact fun _ pdpt hnode => setEntry_of_ne (hupper [0] pdpt hnode (by decide)) _ _ _
    · intro t ht i
      refine setEntry_of_ne ?_ _ _ _
      rintro rfl
      exact (hapart.tables w t ht).2 ⟨_, hleaf⟩

theorem mapUserPage_walks (hpriv : kern.Private virt) (phys : Nat) (writable : Bool) (w : Nat) :
    let r := s.mapUserPage root virt phys writable
    (r.1 = false → walk r.2.mem w 3 root = walk s.mem w 3 root) ∧
    (r.1 = true → ∃ upper : List (BitVec 64), upper.length = 3 ∧
      (∀ e ∈ upper, ∃ a, e = makeEntry a tableFlags) ∧
      walk r.2.mem w 3 root = if path w = path virt then
        some (leafFrame 0 (makeEntry phys (pageFlags writable)) w,
          upper ++ [makeEntry phys (pageFlags writable)])
        else walk s.mem w 3 root) := by
  obtain ⟨tree₁, tables, h₁, hgrown, hhas, -, -, houtcome⟩ :=
    leafTable_spec hpriv (Nat.le_refl 3) h h.rep.atRoot
  have hwalk := leafTable_walk h hapart hpriv w
  have hapart₁ := hapart.confined (hgrown.confined h₁ fun b hb => (hhas b).mp hb)
  simp only [PageState.mapUserPage]
  generalize PageState.leafTable virt 3 root s = result at *
  obtain ⟨found, s₁⟩ := result
  rcases houtcome with ⟨leaf, rfl, hleaf, -⟩ | ⟨rfl, -, -⟩
  · refine ⟨by rintro ⟨⟩, fun _ => ?_⟩
    obtain ⟨upper, hlength, htables, hset⟩ := walk_setPage h₁ hapart₁ hpriv hleaf
      (makeEntry phys (pageFlags writable)) w
    refine ⟨upper, hlength, htables, ?_⟩
    rw [presentEntry, if_pos (isPresent_pageEntry phys writable), hwalk] at hset
    exact hset
  · exact ⟨fun _ => hwalk, by rintro ⟨⟩⟩

theorem unmapUserPage_walks (hpriv : kern.Private virt) (w : Nat) :
    (s.unmapUserPage root virt).1 = tree.node (path virt) ∧
      walk (s.unmapUserPage root virt).2.mem w 3 root =
        if path w = path virt then none else walk s.mem w 3 root := by
  cases hnode : tree.node (path virt) with
  | none =>
    rw [unmapUserPage_of_none h hpriv hnode]
    refine ⟨rfl, ?_⟩
    split
    · rename_i hpath
      exact walk_of_absent h (private_of_path hpath hpriv) (hpath ▸ hnode)
    · rfl
  | some phys =>
    obtain ⟨leaf, hleaf, heq⟩ := unmapUserPage_eq h hpriv hnode
    obtain ⟨upper, -, -, hset⟩ := walk_setPage h hapart hpriv hleaf 0 w
    rw [heq]
    exact ⟨rfl, hset⟩

end Mapping

section Translations

/-- `virt_to_phys` and the processor find the same at the address. -/
def SameTranslation (mem mem' : Mem) (root virt : Nat) : Prop :=
  virtToPhys mem' root virt = virtToPhys mem root virt ∧
    translate mem' root virt = translate mem root virt

/-- The addresses in the page of `virt`.  A walk does not read the bits above the 48th. -/
def SamePage (virt w : Nat) : Prop :=
  w % 2 ^ 48 / pageSize = virt / pageSize

/-- The page leads to the frame, open to the user and writable as asked for, and all
other translations are as before. -/
structure MapsPage (mem mem' : Mem) (root virt phys : Nat) (writable : Bool) : Prop where
  address : ∀ w, SamePage virt w → virtToPhys mem' root w = some (phys + w % pageSize)
  access : ∀ w, SamePage virt w → translate mem' root w = some ⟨phys, writable, true, false⟩
  others : ∀ w, ¬ SamePage virt w → SameTranslation mem mem' root w

structure UnmapsPage (mem mem' : Mem) (root virt : Nat) (found : Option Nat) : Prop where
  returned : virtToPhys mem root virt = found.map (· + virt % pageSize)
  gone : ∀ w, SamePage virt w → virtToPhys mem' root w = none ∧ translate mem' root w = none
  others : ∀ w, ¬ SamePage virt w → SameTranslation mem mem' root w

theorem sameTranslation_of_walk (h : walk mem' virt 3 root = walk mem virt 3 root) :
    SameTranslation mem mem' root virt := by
  rw [SameTranslation, virtToPhys_eq, virtToPhys_eq, PageTables.translate, PageTables.translate, h]
  exact ⟨rfl, rfl⟩

theorem path_mod (w : Nat) : path (w % 2 ^ 48) = path w := by
  have hindex : ∀ level ≤ 3, tableIndex level (w % 2 ^ 48) = tableIndex level w := by
    intro level hlevel
    refine Fin.ext ?_
    simp only [tableIndex, Fin.val_ofNat]
    interval_cases level <;> omega
  simp only [path, hindex 0 (by omega), hindex 1 (by omega), hindex 2 (by omega),
    hindex 3 (by omega)]

theorem samePage_iff {w : Nat} (hvirt : virt < 2 ^ 48) : SamePage virt w ↔ path w = path virt := by
  rw [← path_mod w, path_inj (Nat.mod_lt w (by decide)) hvirt, SamePage]

theorem physAddr_page {upper : List (BitVec 64)} (hlength : upper.length = 3)
    (hframe : IsFrame phys) (writable : Bool) (virt : Nat) :
    physAddr (upper ++ [makeEntry phys (pageFlags writable)]) virt = phys + virt % pageSize := by
  obtain ⟨k, rfl⟩ : ∃ k, phys = 2 ^ 12 * k := ⟨phys / 2 ^ 12, by
    have haligned : phys % 2 ^ 12 = 0 := hframe.1
    omega⟩
  rw [physAddr, List.getLastD_concat, entryAddr_makeEntry hframe, List.length_append, hlength]
  exact (Nat.two_pow_add_eq_or_of_lt (Nat.mod_lt virt (by decide)) k).symm

section Calls

variable {s : PageState} {kern : KernelTables} {root kernelCr3 virt : Nat} {tree : TableTree}

theorem mapUserPage_translations (h : OwnsPages s kern root tree)
    (hapart : KernelApart s kern kernelCr3 tree) (hlow : 0x40000000 ≤ virt)
    (hhigh : virt < 0xC0000000) (hframe : IsFrame phys) (writable : Bool) :
    let r := s.mapUserPage root virt phys writable
    (r.1 = true → MapsPage s.mem r.2.mem root virt phys writable) ∧
      (r.1 = false → ∀ w, SameTranslation s.mem r.2.mem root w) := by
  have hpage : ∀ w, SamePage virt w ↔ path w = path virt := fun w => samePage_iff (by omega)
  have hwalks := fun w =>
    mapUserPage_walks h hapart (private_of_window ⟨hlow, hhigh⟩) phys writable w
  refine ⟨fun hok => ⟨fun w hw => ?_, fun w hw => ?_, fun w hw => ?_⟩, fun hfailed w => ?_⟩
  · obtain ⟨upper, hlength, -, hwalk⟩ := (hwalks w).2 hok
    rw [if_pos ((hpage w).mp hw)] at hwalk
    rw [virtToPhys_eq, hwalk, Option.map_some, physAddr_page hlength hframe]
  · obtain ⟨upper, -, htables, hwalk⟩ := (hwalks w).2 hok
    rw [if_pos ((hpage w).mp hw)] at hwalk
    exact translate_of_walk hframe htables hwalk
  · obtain ⟨upper, -, -, hwalk⟩ := (hwalks w).2 hok
    rw [if_neg fun hpath => hw ((hpage w).mpr hpath)] at hwalk
    exact sameTranslation_of_walk hwalk
  · exact sameTranslation_of_walk ((hwalks w).1 hfailed)

theorem unmapUserPage_translations (h : OwnsPages s kern root tree)
    (hapart : KernelApart s kern kernelCr3 tree) (hlow : 0x40000000 ≤ virt)
    (hhigh : virt < 0xC0000000) :
    UnmapsPage s.mem (s.unmapUserPage root virt).2.mem root virt (s.unmapUserPage root virt).1 := by
  have hpriv : kern.Private virt := private_of_window ⟨hlow, hhigh⟩
  have hpage : ∀ w, SamePage virt w ↔ path w = path virt := fun w => samePage_iff (by omega)
  have hwalks := fun w => unmapUserPage_walks h hapart hpriv w
  refine ⟨?_, fun w hw => ?_, fun w hw => ?_⟩
  · rw [(hwalks virt).1]
    cases hnode : tree.node (path virt) with
    | none =>
      rw [virtToPhys_eq, walk_of_absent h hpriv hnode]
      rfl
    | some phys =>
      obtain ⟨upper, hlength, -, hwalk⟩ := walk_along h hpriv (Nat.le_refl 3) h.rep.atRoot
      obtain ⟨writable, hpte⟩ := pte_of_node h hpriv hnode
      rw [virtToPhys_eq, hwalk s.mem fun _ _ _ _ _ => rfl, ← pte_eq h hpriv, hpte,
        Option.map_some, Option.map_some, physAddr_page hlength (h.isFrame ⟨_, hnode⟩),
        Option.map_some]
  · have hwalk := (hwalks w).2
    rw [if_pos ((hpage w).mp hw)] at hwalk
    rw [virtToPhys_eq, PageTables.translate, hwalk]
    exact ⟨rfl, rfl⟩
  · have hwalk := (hwalks w).2
    rw [if_neg fun hpath => hw ((hpage w).mpr hpath)] at hwalk
    exact sameTranslation_of_walk hwalk

end Calls

theorem sameTranslation_of_pte {s s' : PageState} {tree tree' : TableTree}
    (h : OwnsPages s kern root tree) (h' : OwnsPages s' kern root tree') (hpriv : kern.Private virt)
    (hpte : pte s'.mem root virt = pte s.mem root virt) :
    SameTranslation s.mem s'.mem root virt := by
  have haddr : ∀ {s : PageState} {tree : TableTree}, OwnsPages s kern root tree →
      virtToPhys s.mem root virt =
        (pte s.mem root virt).map fun entry => entryAddr entry ||| virt % 2 ^ 12 := by
    intro s tree h
    obtain ⟨upper, hlength, -, hwalk⟩ := walk_along h hpriv (Nat.le_refl 3) h.rep.atRoot
    rw [virtToPhys_eq, hwalk s.mem fun _ _ _ _ _ => rfl, ← pte_eq h hpriv, Option.map_map]
    congr 1
    funext entry
    simp [physAddr, hlength]
  constructor
  · rw [haddr h, haddr h', hpte]
  · rw [translate_eq h hpriv, translate_eq h' hpriv, hpte]

structure SpaceApart (kern : KernelTables) (kernelCr3 : Nat) (s : SpaceState) : Prop where
  heap : HeapBounds s.space
  exists_tree : ∃ tree, OwnsPages s.pages kern s.space.pml4 tree ∧
    KernelApart s.pages kern kernelCr3 tree

theorem SpaceApart.perform {s : SpaceState} (h : SpaceApart kern kernelCr3 s) (op : SpaceOp)
    (hop : OpInWindow s op) : SpaceApart kern kernelCr3 (s.perform op) := by
  obtain ⟨tree, howns, hapart⟩ := h.exists_tree
  obtain ⟨⟨tree', hrun⟩, hroot, hheap, -⟩ := perform_run howns h.heap op (opFits_of_inWindow hop)
  have hconfined := hrun.confined howns
  exact ⟨hheap, tree', hroot ▸ hconfined.owns, hapart.confined hconfined⟩

theorem spaceApart_new {pmm pmm' : Pmm} {space : AddressSpace}
    (hroot : KernelRoot mem pmm kern kernelCr3)
    (htables : ∀ virt, ∀ t ∈ walkTables mem virt 3 kernelCr3, ¬ pmm.FreeAt t)
    (hnew : AddressSpace.new kernelCr3 mem pmm = (some space, mem', pmm')) :
    SpaceApart kern kernelCr3 ⟨mem', pmm', space⟩ := by
  rcases new_cases hroot with ⟨_, _, _, hnone, -⟩ | ⟨space₁, mem₁, pmm₁, tree, hsome, hcreated⟩
  · rw [hnone] at hnew
    cases hnew
  · rw [hsome] at hnew
    cases hnew
    have hempty : KernelApart ⟨mem, pmm, []⟩ kern kernelCr3 .empty :=
      ⟨hroot, fun v t ht => ⟨htables v t ht, not_has_empty t⟩⟩
    exact ⟨hcreated.heap, tree, hcreated.owns, hempty.confined
      (hcreated.grown.confined hcreated.owns fun a ha => .inr ((hcreated.has a).mp ha))⟩

/-- After any calls of a new space in its window, mapping a page to any frame and
unmapping a page change the translation of that page as asked, and no other. -/
theorem translations_correct (kern : KernelTables) {kernelCr3 : Nat} {mem mem' : Mem}
    {pmm pmm' : Pmm} {space : AddressSpace} (hroot : KernelRoot mem pmm kern kernelCr3)
    (htables : ∀ virt, ∀ t ∈ walkTables mem virt 3 kernelCr3, ¬ pmm.FreeAt t)
    (hnew : AddressSpace.new kernelCr3 mem pmm = (some space, mem', pmm')) (ops : List SpaceOp)
    (hops : Guarded SpaceState.perform OpInWindow ⟨mem', pmm', space⟩ ops) {virt : Nat}
    (hlow : 0x40000000 ≤ virt) (hhigh : virt < 0xC0000000) :
    let s := ops.foldl SpaceState.perform ⟨mem', pmm', space⟩
    (∀ phys writable, IsFrame phys →
      let r := s.pages.mapUserPage s.space.pml4 virt phys writable
      (r.1 = true → MapsPage s.mem r.2.mem s.space.pml4 virt phys writable) ∧
        (r.1 = false → ∀ w, SameTranslation s.mem r.2.mem s.space.pml4 w)) ∧
    let r := s.pages.unmapUserPage s.space.pml4 virt
    UnmapsPage s.mem r.2.mem s.space.pml4 virt r.1 := by
  have hspace : SpaceApart kern kernelCr3 (ops.foldl SpaceState.perform ⟨mem', pmm', space⟩) :=
    invariant_of_guarded (fun s op h hop => h.perform op hop) (spaceApart_new hroot htables hnew)
      hops
  obtain ⟨tree, howns, hapart⟩ := hspace.exists_tree
  exact ⟨fun phys writable hframe =>
    mapUserPage_translations howns hapart hlow hhigh hframe writable,
    unmapUserPage_translations howns hapart hlow hhigh⟩

/-- A space with one page mapped: a second page is mapped to a frame of the kernel, and
the first one is unmapped. -/
theorem translations_correct_two_pages :
    ∃ space mem' pmm', AddressSpace.new 0x1000 hardwareTables (fewFrames 16) =
        (some space, mem', pmm') ∧
      let s := [SpaceOp.mapPage 0x60000000 true].foldl SpaceState.perform ⟨mem', pmm', space⟩
      let r := s.pages.mapUserPage s.space.pml4 0x60001000 0x7000 false
      let u := s.pages.unmapUserPage s.space.pml4 0x60000000
      r.1 = true ∧ MapsPage s.mem r.2.mem s.space.pml4 0x60001000 0x7000 false ∧
        u.1.isSome = true ∧ UnmapsPage s.mem u.2.mem s.space.pml4 0x60000000 u.1 := by
  obtain ⟨space, mem', pmm', hnew, hmapped, hremoved⟩ := exists_new (n := 16)
    (P := fun s₀ => let s := [SpaceOp.mapPage 0x60000000 true].foldl SpaceState.perform s₀
      (s.pages.mapUserPage s.space.pml4 0x60001000 0x7000 false).1 = true ∧
        (s.pages.unmapUserPage s.space.pml4 0x60000000).1.isSome = true) (by decide +kernel)
  have hlow : ∀ virt, ∀ t ∈ walkTables hardwareTables virt 3 0x1000, ¬ (fewFrames 16).FreeAt t :=
    fun _ _ ht => not_freeAt_of_low (walkTables_hardware ht)
  have hops : Guarded SpaceState.perform OpInWindow (SpaceState.mk mem' pmm' space)
      [SpaceOp.mapPage 0x60000000 true] := ⟨⟨by decide, by decide⟩, trivial⟩
  refine ⟨space, mem', pmm', hnew, hmapped, ?_, hremoved, ?_⟩
  · exact ((translations_correct hardwareKernel (hardwareKernel_root _) hlow hnew _ hops (by decide)
      (by decide)).1 0x7000 false ⟨by decide, by decide⟩).1 hmapped
  · exact (translations_correct hardwareKernel (hardwareKernel_root _) hlow hnew _ hops (by decide)
      (by decide)).2

end Translations

end AuraOS.UserSpace
