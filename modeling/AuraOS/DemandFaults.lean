import AuraOS.AreaEffects
import AuraOS.PageMapping

namespace AuraOS.UserSpace

open PhysicalFrames PageTables VirtualAreas Function

variable {flag : BitVec 64} {mem : Mem} {virt level table phys leaf frame : Nat} {pmm : Pmm}
  {index : Fin 512} {entries : List (BitVec 64)} {page : Translation}

/-- A present entry as `map_user_page` leaves it on its way. -/
def openEntry (entry : BitVec 64) : BitVec 64 :=
  makeEntry (entryAddr entry) (entryFlags entry ||| userAccessible ||| PageTables.writable)

theorem hasFlag_or (a b flag : BitVec 64) :
    hasFlag (a ||| b) flag = (hasFlag a flag || hasFlag b flag) := by
  have hzero : (a ||| b) &&& flag = 0#64 ↔ a &&& flag = 0#64 ∧ b &&& flag = 0#64 := by
    rw [BitVec.and_or_distrib_right, BitVec.or_eq_zero_iff]
  rw [Bool.eq_iff_iff, Bool.or_eq_true, hasFlag, hasFlag, hasFlag, bne_iff_ne, bne_iff_ne,
    bne_iff_ne, ← not_and_or]
  exact not_congr hzero

theorem hasFlag_entryFlags (h : flagsMask &&& flag = flag) (entry : BitVec 64) :
    hasFlag (entryFlags entry) flag = hasFlag entry flag := by
  rw [hasFlag, entryFlags, BitVec.and_assoc, h, hasFlag]

theorem hasFlag_openEntry (haddr : addrMask &&& flag = 0) (hflags : flagsMask &&& flag = flag)
    (entry : BitVec 64) :
    hasFlag (openEntry entry) flag =
      (hasFlag entry flag || hasFlag userAccessible flag || hasFlag PageTables.writable flag) := by
  rw [openEntry, hasFlag_makeEntry haddr hflags, hasFlag_or, hasFlag_or, hasFlag_entryFlags hflags]

@[simp]
theorem isPresent_openEntry (entry : BitVec 64) :
    isPresent (openEntry entry) = isPresent entry := by
  rw [isPresent, hasFlag_openEntry (by decide) (by decide), isPresent]
  have hu : hasFlag userAccessible present = false := by decide
  have hw : hasFlag PageTables.writable present = false := by decide
  rw [hu, hw, Bool.or_false, Bool.or_false]

@[simp]
theorem entryAddr_openEntry (entry : BitVec 64) :
    entryAddr (openEntry entry) = entryAddr entry := by
  rw [entryAddr, openEntry, makeEntry_and_addrMask, entryAddr, BitVec.ofNat_toNat,
    BitVec.setWidth_eq, BitVec.and_assoc, BitVec.and_self]

@[simp]
theorem isLeaf_openEntry (level : Nat) (entry : BitVec 64) :
    isLeaf level (openEntry entry) = isLeaf level entry := by
  have hhuge : hasFlag (openEntry entry) hugePage = hasFlag entry hugePage := by
    rw [hasFlag_openEntry (by decide) (by decide)]
    have hu : hasFlag userAccessible hugePage = false := by decide
    have hw : hasFlag PageTables.writable hugePage = false := by decide
    rw [hu, hw, Bool.or_false, Bool.or_false]
  rw [isLeaf, isLeaf, hhuge]

theorem openEntry_user (entry : BitVec 64) : hasFlag (openEntry entry) userAccessible = true := by
  rw [hasFlag_openEntry (by decide) (by decide)]
  have hu : hasFlag userAccessible userAccessible = true := by decide
  rw [hu, Bool.or_true, Bool.true_or]

theorem openEntry_writable (entry : BitVec 64) :
    hasFlag (openEntry entry) PageTables.writable = true := by
  rw [hasFlag_openEntry (by decide) (by decide)]
  have hw : hasFlag PageTables.writable PageTables.writable = true := by decide
  rw [hw, Bool.or_true]

@[simp]
theorem openEntry_openEntry (entry : BitVec 64) :
    openEntry (openEntry entry) = openEntry entry := by
  have hflags : (entryFlags (openEntry entry) ||| userAccessible ||| PageTables.writable) &&&
      flagsMask = (entryFlags entry ||| userAccessible ||| PageTables.writable) &&& flagsMask := by
    rw [openEntry, entryFlags_makeEntry]
    refine BitVec.eq_of_getElem_eq fun i hi => ?_
    simp only [BitVec.getElem_and, BitVec.getElem_or]
    cases (entryFlags entry)[i] <;> cases userAccessible[i] <;> cases PageTables.writable[i] <;>
      cases flagsMask[i] <;> rfl
  rw [openEntry, entryAddr_openEntry, makeEntry, hflags, openEntry, makeEntry]

/-- The frames that mapping a page takes: one for the page and one for every table that is
missing on the way to it; none if the page is mapped. -/
def framesToMap (mem : Mem) (virt : Nat) : Nat → Nat → Nat
  | 0, table => if isPresent (mem table (tableIndex 0 virt)) then 0 else 1
  | level + 1, table =>
    let entry := mem table (tableIndex (level + 1) virt)
    if isPresent entry then
      if isLeaf (level + 1) entry then 0 else framesToMap mem virt level (entryAddr entry)
    else level + 2

theorem walk_eq_none_iff (level table : Nat) :
    walk mem virt level table = none ↔ 0 < framesToMap mem virt level table := by
  induction level generalizing table with
  | zero =>
    simp only [walk, framesToMap]
    split <;> simp
  | succ level ih =>
    simp only [walk, framesToMap]
    split
    · split
      · simp
      · rw [Option.map_eq_none_iff, ih]
    · simp

theorem framesToMap_of_absent (h : isPresent (mem table (tableIndex level virt)) = false) :
    framesToMap mem virt level table = level + 1 := by
  cases level with
  | zero => simp [framesToMap, h]
  | succ level => simp [framesToMap, h]

theorem isFrame_of_freeAt {addr : Nat} (h : pmm.FreeAt addr) : IsFrame addr := by
  obtain ⟨frame, hframe, rfl, -⟩ := h
  exact isFrame_frameAddr hframe

/-- The tables under a root, each of one level, are in use, and so are the pages that their
entries give to the user, none of which is a table. -/
structure TableLevels (mem : Mem) (pmm : Pmm) (root : Nat) (levels : Nat → Option Nat) : Prop where
  root : levels root = some 3
  used : ∀ t l, levels t = some l → ¬ pmm.FreeAt t
  next : ∀ t l i, levels t = some (l + 1) → isPresent (mem t i) = true →
    isLeaf (l + 1) (mem t i) = false → levels (entryAddr (mem t i)) = some l
  page : ∀ t l i virt, levels t = some l → isPresent (mem t i) = true →
    isLeaf l (mem t i) = true → hasFlag (mem t i) userAccessible = true →
      ¬ pmm.FreeAt (leafFrame l (mem t i) virt) ∧ levels (leafFrame l (mem t i) virt) = none

/-- An entry of a table of a level gives a table of the next one, or no page to the user but
one in use. -/
structure Leads (pmm : Pmm) (levels : Nat → Option Nat) (level : Nat) (entry : BitVec 64) :
    Prop where
  next : ∀ l, level = l + 1 → isLeaf level entry = false → levels (entryAddr entry) = some l
  page : isLeaf level entry = true → hasFlag entry userAccessible = true → ∀ virt,
    ¬ pmm.FreeAt (leafFrame level entry virt) ∧ levels (leafFrame level entry virt) = none

section TableLevels

variable {mem mem' : Mem} {pmm pmm' : Pmm} {root virt : Nat} {levels levels' : Nat → Option Nat}

variable (h : TableLevels mem pmm root levels)
include h

/-- Frames that were free become tables, and entries change to such that lead somewhere. -/
theorem TableLevels.grow (hkept : ∀ t l, levels t = some l → levels' t = some l)
    (hfresh : ∀ t l, levels' t = some l → levels t = none → pmm.FreeAt t ∧ ¬ pmm'.FreeAt t)
    (hfree : ∀ a, pmm'.FreeAt a → pmm.FreeAt a)
    (hentry : ∀ t l i, levels' t = some l → isPresent (mem' t i) = true →
      levels t = some l ∧ mem' t i = mem t i ∨ Leads pmm' levels' l (mem' t i)) :
    TableLevels mem' pmm' root levels' where
  root := hkept _ _ h.root
  used := by
    intro t l ht
    cases hold : levels t with
    | none => exact (hfresh t l ht hold).2
    | some l' => exact fun hf => h.used t l' hold (hfree t hf)
  next := by
    intro t l i ht hpresent hleaf
    rcases hentry t _ i ht hpresent with ⟨hold, heq⟩ | hleads
    · rw [heq] at hpresent hleaf ⊢
      exact hkept _ _ (h.next t l i hold hpresent hleaf)
    · exact hleads.next l rfl hleaf
  page := by
    intro t l i virt ht hpresent hleaf huser
    rcases hentry t _ i ht hpresent with ⟨hold, heq⟩ | hleads
    · rw [heq] at hpresent hleaf huser ⊢
      obtain ⟨hused, hnone⟩ := h.page t l i virt hold hpresent hleaf huser
      refine ⟨fun hf => hused (hfree _ hf), ?_⟩
      cases hnew : levels' (leafFrame l (mem t i) virt) with
      | none => rfl
      | some l' => exact absurd (hfresh _ _ hnew hnone).1 hused
    · exact hleads.page hleaf huser virt

theorem TableLevels.same (hfree : ∀ a, pmm'.FreeAt a → pmm.FreeAt a)
    (hentry : ∀ t l i, levels t = some l → isPresent (mem' t i) = true →
      mem' t i = mem t i ∨ Leads pmm' levels l (mem' t i)) : TableLevels mem' pmm' root levels := by
  refine h.grow (fun _ _ ht => ht) ?_ hfree fun t l i ht hpresent =>
    (hentry t l i ht hpresent).imp_left fun heq => ⟨ht, heq⟩
  intro t l ht hnone
  rw [hnone] at ht
  cases ht

theorem TableLevels.framesToMap_congr (hmem : ∀ t l, levels t = some l → ∀ i,
      mem' t i = mem t i ∨ mem' t i = openEntry (mem t i)) (htable : levels table = some level) :
    framesToMap mem' virt level table = framesToMap mem virt level table := by
  have hentry : ∀ {t l}, levels t = some l → ∀ i, isPresent (mem' t i) = isPresent (mem t i) ∧
      entryAddr (mem' t i) = entryAddr (mem t i) ∧
        ∀ l, isLeaf l (mem' t i) = isLeaf l (mem t i) := by
    intro t l ht i
    rcases hmem t l ht i with heq | heq <;> rw [heq] <;> simp
  induction level generalizing table with
  | zero => simp only [framesToMap, (hentry htable _).1]
  | succ level ih =>
    obtain ⟨hpresent', haddr, hleaf'⟩ := hentry htable (tableIndex (level + 1) virt)
    simp only [framesToMap, hpresent', haddr, hleaf']
    split
    · rename_i hpresent
      split
      · rfl
      · rename_i hleaf
        exact ih (h.next table level _ htable hpresent (Bool.eq_false_iff.mpr hleaf))
    · rfl

end TableLevels

structure TableGrowth (s s' : PageState) (levels levels' : Nat → Option Nat) : Prop where
  free : ∀ a, s'.pmm.FreeAt a → s.pmm.FreeAt a
  kept : ∀ t l, levels t = some l → levels' t = some l
  fresh : ∀ t l, levels' t = some l → levels t = none → s.pmm.FreeAt t
  present : ∀ t l i, levels t = some l → isPresent (s.mem t i) = true →
    s'.mem t i = s.mem t i ∨ s'.mem t i = openEntry (s.mem t i)
  other : ∀ t i, levels t = none → ¬ s.pmm.FreeAt t → s'.mem t i = s.mem t i

section TableGrowth

variable {s s₁ s' : PageState} {levels levels₁ levels' : Nat → Option Nat}

theorem TableGrowth.same (hfree : ∀ a, s'.pmm.FreeAt a → s.pmm.FreeAt a)
    (hpresent : ∀ t l i, levels t = some l → isPresent (s.mem t i) = true →
      s'.mem t i = s.mem t i ∨ s'.mem t i = openEntry (s.mem t i))
    (hother : ∀ t i, levels t = none → ¬ s.pmm.FreeAt t → s'.mem t i = s.mem t i) :
    TableGrowth s s' levels levels := by
  refine ⟨hfree, fun _ _ h => h, ?_, hpresent, hother⟩
  intro t l h hnone
  rw [hnone] at h
  cases h

theorem TableGrowth.refl (s : PageState) (levels : Nat → Option Nat) :
    TableGrowth s s levels levels :=
  .same (fun _ h => h) (fun _ _ _ _ _ => .inl rfl) fun _ _ _ _ => rfl

theorem TableGrowth.trans (h₁ : TableGrowth s s₁ levels levels₁)
    (h₂ : TableGrowth s₁ s' levels₁ levels') : TableGrowth s s' levels levels' where
  free := fun a h => h₁.free a (h₂.free a h)
  kept := fun t l h => h₂.kept t l (h₁.kept t l h)
  fresh := by
    intro t l h hnone
    cases hmid : levels₁ t with
    | none => exact h₁.free t (h₂.fresh t l h hmid)
    | some l₁ => exact h₁.fresh t l₁ hmid hnone
  present := by
    intro t l i ht hpresent
    rcases h₁.present t l i ht hpresent with heq₁ | heq₁ <;>
      rcases h₂.present t l i (h₁.kept t l ht) (by simp [heq₁, hpresent]) with heq₂ | heq₂ <;>
        simp [heq₁, heq₂]
  other := by
    intro t i hnone hused
    have hnone₁ : levels₁ t = none := by
      cases hmid : levels₁ t with
      | none => rfl
      | some l => exact absurd (h₁.fresh t l hmid hnone) hused
    rw [h₂.other t i hnone₁ fun hfree => hused (h₁.free t hfree), h₁.other t i hnone hused]

end TableGrowth

structure OpensTo (entry : BitVec 64) (level next : Nat) : Prop where
  present : isPresent entry = true
  leaf : isLeaf level entry = false
  addr : entryAddr entry = next
  opened : openEntry entry = entry

theorem opensTo_openEntry {entry : BitVec 64} (hpresent : isPresent entry = true)
    (hleaf : isLeaf level entry = false) : OpensTo (openEntry entry) level (entryAddr entry) := by
  constructor <;> simp [hpresent, hleaf]

theorem opensTo_tableEntry (h : IsFrame phys) (level : Nat) :
    OpensTo (makeEntry phys tableFlags) (level + 1) phys := by
  have haddr := entryAddr_makeEntry h tableFlags
  exact ⟨isPresent_tableEntry _, isLeaf_tableEntry _ _, haddr,
    by rw [openEntry, haddr, reopen_tableEntry]⟩

def LeafReady (mem : Mem) (virt level table leaf : Nat) : Prop :=
  ∀ entry, isPresent entry = true → ∃ entries,
    walk (mem.setEntry leaf (tableIndex 0 virt) entry) virt level table =
      some (leafFrame 0 entry virt, entries ++ [entry]) ∧
    ∀ e ∈ entries, hasFlag e userAccessible = true ∧ hasFlag e PageTables.writable = true

theorem LeafReady.succ {next : Nat} (h : LeafReady mem virt level next leaf)
    (hopen : OpensTo (mem table (tableIndex (level + 1) virt)) (level + 1) next)
    (habsent : isPresent (mem leaf (tableIndex 0 virt)) = false) :
    LeafReady mem virt (level + 1) table leaf := by
  intro entry hpresent
  obtain ⟨entries, hwalk, hentries⟩ := h entry hpresent
  -- the leaf's slot is absent, so it is not the present slot above it
  have hslot : mem.setEntry leaf (tableIndex 0 virt) entry table (tableIndex (level + 1) virt) =
      mem table (tableIndex (level + 1) virt) := by
    rw [setEntry_apply, if_neg]
    rintro ⟨rfl, heq⟩
    exact Bool.false_ne_true (habsent.symm.trans (heq ▸ hopen.present))
  refine ⟨mem table (tableIndex (level + 1) virt) :: entries, ?_, ?_⟩
  · simp only [walk, hslot, hopen.present, if_true, hopen.leaf, Bool.false_eq_true, if_false,
      hopen.addr, hwalk, Option.map_some, List.cons_append]
  · rw [List.forall_mem_cons]
    refine ⟨?_, hentries⟩
    rw [← hopen.opened]
    exact ⟨openEntry_user _, openEntry_writable _⟩

section LeafTable

variable {s s' : PageState} {levels levels' : Nat → Option Nat} {root virt level table : Nat}

theorem TableGrowth.entry_of_opensTo {next : Nat} (hgrowth : TableGrowth s s' levels levels')
    (htable : levels table = some level) (hopen : OpensTo (s.mem table index) level next) :
    s'.mem table index = s.mem table index := by
  rcases hgrowth.present table level index htable hopen.present with heq | heq
  · exact heq
  · rw [heq, hopen.opened]

def PageState.openAt (s : PageState) (table : Nat) (index : Fin 512) : PageState :=
  { s with mem := s.mem.setEntry table index (openEntry (s.mem table index)) }

def PageState.tableAt (s : PageState) (table : Nat) (index : Fin 512) (phys : Nat) (pmm : Pmm) :
    PageState :=
  ⟨(s.mem.zeroFrame phys).setEntry table index (makeEntry phys tableFlags), pmm,
    s.allocatedFrames ++ [phys]⟩

/-- What one level of `map_user_page` does on the way to an absent page. -/
structure NextTable (s s' : PageState) (levels levels' : Nat → Option Nat)
    (root virt level table next : Nat) : Prop where
  tables : TableLevels s'.mem s'.pmm root levels'
  growth : TableGrowth s s' levels levels'
  below : levels' next = some level
  entry : OpensTo (s'.mem table (tableIndex (level + 1) virt)) (level + 1) next
  frames : s.pmm.freeCount + framesToMap s'.mem virt level next =
    s'.pmm.freeCount + framesToMap s.mem virt (level + 1) table
  absent : 0 < framesToMap s'.mem virt level next

variable (h : TableLevels s.mem s.pmm root levels) (htable : levels table = some (level + 1))
include h htable

theorem openAt_next (hentry : isPresent (s.mem table (tableIndex (level + 1) virt)) = true)
    (habsent : 0 < framesToMap s.mem virt (level + 1) table) :
    NextTable s (s.openAt table (tableIndex (level + 1) virt)) levels levels root virt level table
      (entryAddr (s.mem table (tableIndex (level + 1) virt))) := by
  have hleaf : isLeaf (level + 1) (s.mem table (tableIndex (level + 1) virt)) = false := by
    by_contra hleaf
    rw [Bool.not_eq_false] at hleaf
    simp [framesToMap, hentry, hleaf] at habsent
  have hnext := h.next _ _ _ htable hentry hleaf
  have hopen := opensTo_openEntry hentry hleaf
  have hmem : ∀ t i, (s.openAt table (tableIndex (level + 1) virt)).mem t i = s.mem t i ∨
      (t = table ∧ i = tableIndex (level + 1) virt) ∧
        (s.openAt table (tableIndex (level + 1) virt)).mem t i = openEntry (s.mem t i) := by
    intro t i
    by_cases hslot : t = table ∧ i = tableIndex (level + 1) virt
    · obtain ⟨rfl, rfl⟩ := hslot
      exact .inr ⟨⟨rfl, rfl⟩, setEntry_self _ _ _⟩
    · exact .inl (if_neg hslot)
  have hframes : framesToMap (s.openAt table (tableIndex (level + 1) virt)).mem virt level
      (entryAddr (s.mem table (tableIndex (level + 1) virt))) =
        framesToMap s.mem virt (level + 1) table := by
    rw [h.framesToMap_congr (fun t _ _ i => (hmem t i).imp_right And.right) hnext]
    simp [framesToMap, hentry, hleaf]
  refine ⟨h.same (fun _ hf => hf) ?_, .same (fun _ hf => hf) ?_ ?_, hnext, ?_, ?_, ?_⟩
  · intro t l i ht _
    refine (hmem t i).imp_right ?_
    rintro ⟨⟨rfl, rfl⟩, heq⟩
    cases htable.symm.trans ht
    rw [heq]
    refine ⟨?_, fun hleaf' => absurd hopen.leaf (by simp [hleaf'])⟩
    rintro _ ⟨⟩ -
    exact hopen.addr ▸ hnext
  · exact fun t _ i _ _ => (hmem t i).imp_right And.right
  · intro t i hnone _
    refine (hmem t i).resolve_right ?_
    rintro ⟨⟨rfl, -⟩, -⟩
    rw [htable] at hnone
    cases hnone
  · simpa only [PageState.openAt, setEntry_self] using hopen
  · rw [hframes]
    rfl
  · rwa [hframes]

theorem tableAt_next (hspec : Allocated s.pmm pmm phys)
    (hentry : isPresent (s.mem table (tableIndex (level + 1) virt)) = false) :
    NextTable s (s.tableAt table (tableIndex (level + 1) virt) phys pmm) levels
      (update levels phys (some level)) root virt level table phys := by
  have hold : ∀ {t l}, levels t = some l → t ≠ phys := fun ht heq =>
    h.used _ _ ht (heq ▸ hspec.free)
  have hopen := opensTo_tableEntry (isFrame_of_freeAt hspec.free) level
  have hself : (s.tableAt table (tableIndex (level + 1) virt) phys pmm).mem table
      (tableIndex (level + 1) virt) = makeEntry phys tableFlags := setEntry_self _ _ _
  have hmem : ∀ t i, t ≠ phys → ¬ (t = table ∧ i = tableIndex (level + 1) virt) →
      (s.tableAt table (tableIndex (level + 1) virt) phys pmm).mem t i = s.mem t i :=
    fun t i hne hslot => (if_neg hslot).trans (if_neg hne)
  have hzero : ∀ i,
      isPresent ((s.tableAt table (tableIndex (level + 1) virt) phys pmm).mem phys i) =
      false := by
    intro i
    have hzero : (s.tableAt table (tableIndex (level + 1) virt) phys pmm).mem phys i = 0 :=
      (setEntry_of_ne (hold htable).symm _ _ _).trans (if_pos rfl)
    rw [hzero]
    decide
  have hkept : ∀ t l, levels t = some l → update levels phys (some level) t = some l :=
    fun t l ht => (update_of_ne (hold ht) _ _).trans ht
  have hfresh : ∀ t l, update levels phys (some level) t = some l → levels t = none → t = phys := by
    intro t l ht hnone
    by_contra hne
    rw [update_of_ne hne, hnone] at ht
    cases ht
  have hfree : ∀ a, pmm.FreeAt a → s.pmm.FreeAt a := fun a hf => ((hspec.free_iff a).mp hf).1
  refine ⟨h.grow hkept ?_ hfree ?_, ⟨hfree, hkept, ?_, ?_, ?_⟩, update_self _ _ _,
    hself ▸ hopen, ?_, ?_⟩
  · intro t l ht hnone
    rw [hfresh t l ht hnone]
    exact ⟨hspec.free, fun hf => ((hspec.free_iff _).mp hf).2 rfl⟩
  · intro t l i ht hpresent
    by_cases hnew : t = phys
    · rw [hnew, hzero] at hpresent
      cases hpresent
    · rw [update_of_ne hnew] at ht
      by_cases hslot : t = table ∧ i = tableIndex (level + 1) virt
      · obtain ⟨rfl, rfl⟩ := hslot
        cases htable.symm.trans ht
        rw [hself]
        refine .inr ⟨?_, fun hleaf => absurd hopen.leaf (by simp [hleaf])⟩
        rintro _ ⟨⟩ -
        rw [hopen.addr, update_self]
      · exact .inl ⟨ht, hmem t i hnew hslot⟩
  · exact fun t l ht hnone => hfresh t l ht hnone ▸ hspec.free
  · intro t l i ht hpresent
    refine .inl (hmem t i (hold ht) ?_)
    rintro ⟨rfl, rfl⟩
    rw [hentry] at hpresent
    cases hpresent
  · intro t i hnone hused
    refine hmem t i (fun heq => hused (heq ▸ hspec.free)) ?_
    rintro ⟨rfl, -⟩
    rw [hnone] at htable
    cases htable
  · rw [framesToMap_of_absent (hzero _), framesToMap_of_absent hentry, hspec.count]
    change pmm.freeCount + 1 + (level + 1) = pmm.freeCount + (level + 1 + 1)
    omega
  · rw [framesToMap_of_absent (hzero _)]
    omega

theorem nextTable_of_absent (habsent : 0 < framesToMap s.mem virt (level + 1) table) :
    (∃ next s' levels', s.nextTable table (tableIndex (level + 1) virt) = (some next, s') ∧
      NextTable s s' levels levels' root virt level table next) ∨
    s.nextTable table (tableIndex (level + 1) virt) = (none, s) ∧ s.pmm.freeCount = 0 ∧
      framesToMap s.mem virt (level + 1) table = level + 2 := by
  cases hentry : isPresent (s.mem table (tableIndex (level + 1) virt)) with
  | true =>
    refine .inl ⟨_, _, levels, ?_, openAt_next h htable hentry habsent⟩
    simp only [PageState.nextTable, hentry, if_true]
    rfl
  | false =>
    simp only [PageState.nextTable, hentry, Bool.false_eq_true, if_false, allocPageTable]
    cases halloc : s.pmm.allocFrame with
    | none => exact .inr ⟨rfl, freeCount_eq_zero halloc, framesToMap_of_absent hentry⟩
    | some r =>
      exact .inl ⟨_, _, _, rfl, tableAt_next h htable (allocFrame_spec halloc) hentry⟩

omit htable in
/-- What the levels of `map_user_page` above the page table do for a page that is absent:
they find or make the table, or there are too few frames. -/
theorem leafTable_of_absent
    (htable : levels table = some level) (habsent : 0 < framesToMap s.mem virt level table) :
    (∃ leaf s' levels', PageState.leafTable virt level table s = (some leaf, s') ∧
      s.pmm.freeCount + 1 = s'.pmm.freeCount + framesToMap s.mem virt level table ∧
      TableLevels s'.mem s'.pmm root levels' ∧ TableGrowth s s' levels levels' ∧
      levels' leaf = some 0 ∧ isPresent (s'.mem leaf (tableIndex 0 virt)) = false ∧
      LeafReady s'.mem virt level table leaf) ∨
    ∃ s', PageState.leafTable virt level table s = (none, s') ∧
      s.pmm.freeCount + 1 < framesToMap s.mem virt level table := by
  induction level generalizing s levels table with
  | zero =>
    have hentry : isPresent (s.mem table (tableIndex 0 virt)) = false := by
      by_contra hpresent
      rw [Bool.not_eq_false] at hpresent
      simp [framesToMap, hpresent] at habsent
    refine .inl ⟨table, s, levels, rfl, ?_, h, TableGrowth.refl s levels, htable, hentry, ?_⟩
    · rw [framesToMap_of_absent hentry]
    · intro entry hpresent
      refine ⟨[], ?_, by simp⟩
      simp [walk, hpresent]
  | succ level ih =>
    rw [PageState.leafTable]
    rcases nextTable_of_absent h htable habsent with
      ⟨next, s₁, levels₁, heq, hnext⟩ | ⟨heq, hzero, hframes⟩
    · have hframes := hnext.frames
      simp only [heq]
      rcases ih hnext.tables hnext.below hnext.absent with
        ⟨leaf, s', levels', heq, hcount, htables, hgrowth, hat, hslot, hready⟩ | ⟨s', heq, hcount⟩
      · have hsame := hgrowth.entry_of_opensTo (hnext.growth.kept _ _ htable) hnext.entry
        exact .inl ⟨leaf, s', levels', heq, by omega, htables, hnext.growth.trans hgrowth, hat,
          hslot, hready.succ (hsame ▸ hnext.entry) hslot⟩
      · exact .inr ⟨s', heq, by omega⟩
    · simp only [heq]
      exact .inr ⟨s, rfl, by omega⟩

end LeafTable

section Mapped

variable {s s' : PageState} {levels levels' : Nat → Option Nat} {root virt : Nat}

theorem TableGrowth.walk (hgrowth : TableGrowth s s' levels levels')
    (h : TableLevels s.mem s.pmm root levels) (htable : levels table = some level)
    (hwalk : walk s.mem virt level table = some (frame, entries)) :
    ∃ entries', PageTables.walk s'.mem virt level table = some (frame, entries') ∧
      ((∀ e ∈ entries, hasFlag e userAccessible = true) →
        (∀ e ∈ entries', hasFlag e userAccessible = true) ∧ ¬ s.pmm.FreeAt frame ∧
          levels frame = none) := by
  -- a present entry is as before or opened, which changes no address
  have hentry : ∀ {t l}, levels t = some l → ∀ {i}, isPresent (s.mem t i) = true →
      isPresent (s'.mem t i) = true ∧ entryAddr (s'.mem t i) = entryAddr (s.mem t i) ∧
        (∀ l', isLeaf l' (s'.mem t i) = isLeaf l' (s.mem t i)) ∧
        (hasFlag (s.mem t i) userAccessible = true →
          hasFlag (s'.mem t i) userAccessible = true) := by
    intro t l ht i hpresent
    rcases hgrowth.present t l i ht hpresent with heq | heq <;> rw [heq]
    · exact ⟨hpresent, rfl, fun _ => rfl, fun huser => huser⟩
    · simp [hpresent, openEntry_user]
  induction level generalizing table entries with
  | zero =>
    rw [PageTables.walk] at hwalk
    split at hwalk
    · rename_i hpresent
      obtain ⟨hpresent', haddr, -, huser⟩ := hentry htable hpresent
      cases hwalk
      refine ⟨[s'.mem table (tableIndex 0 virt)], ?_, ?_⟩
      · simp only [PageTables.walk, hpresent', if_true, leafFrame, haddr]
      · simp only [List.forall_mem_singleton]
        exact fun hall => ⟨huser hall, h.page table 0 _ virt htable hpresent rfl hall⟩
    · cases hwalk
  | succ level ih =>
    rw [PageTables.walk] at hwalk
    split at hwalk
    · rename_i hpresent
      obtain ⟨hpresent', haddr, hleaf', huser⟩ := hentry htable hpresent
      split at hwalk
      · rename_i hleaf
        cases hwalk
        refine ⟨[s'.mem table (tableIndex (level + 1) virt)], ?_, ?_⟩
        · simp only [PageTables.walk, hpresent', hleaf', hleaf, if_true, leafFrame, haddr]
        · simp only [List.forall_mem_singleton]
          exact fun hall => ⟨huser hall, h.page table _ _ virt htable hpresent hleaf hall⟩
      · rename_i hleaf
        rw [Bool.not_eq_true] at hleaf
        obtain ⟨⟨frame', rest⟩, hrest, heq⟩ := Option.map_eq_some_iff.mp hwalk
        cases heq
        obtain ⟨rest', hrest', husers⟩ := ih (h.next table level _ htable hpresent hleaf) hrest
        refine ⟨s'.mem table (tableIndex (level + 1) virt) :: rest', ?_, ?_⟩
        · simp only [PageTables.walk, hpresent', hleaf', hleaf, if_true, Bool.false_eq_true,
            if_false, haddr, hrest', Option.map_some]
        · intro hall
          rw [List.forall_mem_cons] at hall ⊢
          exact (husers hall.2).imp_left fun hrest => ⟨huser hall.1, hrest⟩
    · cases hwalk

theorem TableGrowth.translate (hgrowth : TableGrowth s s' levels levels')
    (h : TableLevels s.mem s.pmm root levels) (htranslate : translate s.mem root virt = some page) :
    ∃ page', PageTables.translate s'.mem root virt = some page' ∧ page'.frame = page.frame ∧
      (page.user = true →
        page'.user = true ∧ ¬ s.pmm.FreeAt page.frame ∧ levels page.frame = none) := by
  obtain ⟨⟨frame, entries⟩, hwalk, rfl⟩ := Option.map_eq_some_iff.mp htranslate
  obtain ⟨entries', hwalk', huser'⟩ := hgrowth.walk h h.root hwalk
  refine ⟨_, Option.map_eq_some_iff.mpr ⟨_, hwalk', rfl⟩, rfl, fun huser => ?_⟩
  exact (huser' (List.all_eq_true.mp huser)).imp_left List.all_eq_true.mpr

end Mapped

theorem isPresent_pageEntry (phys : Nat) (writable : Bool) :
    isPresent (makeEntry phys (pageFlags writable)) = true := by
  rw [isPresent_makeEntry]
  cases writable <;> decide

theorem leafFrame_pageEntry (h : IsFrame phys) (flags : BitVec 64) (virt : Nat) :
    leafFrame 0 (makeEntry phys flags) virt = phys := by
  rw [leafFrame, entryAddr_makeEntry h]
  have haligned := h.1
  grind

theorem tableIndex_alignDownPage (level virt : Nat) :
    tableIndex level (alignDownPage virt) = tableIndex level virt := by
  have hsplit : 2 ^ (12 + 9 * level) = pageSize * 2 ^ (9 * level) := Nat.pow_add 2 12 (9 * level)
  rw [tableIndex, tableIndex, alignDownPage, hsplit, ← Nat.div_div_eq_div_mul,
    ← Nat.div_div_eq_div_mul, Nat.mul_div_cancel _ (by decide)]

theorem framesToMap_alignDownPage (mem : Mem) (virt level table : Nat) :
    framesToMap mem (alignDownPage virt) level table = framesToMap mem virt level table := by
  induction level generalizing table with
  | zero => simp only [framesToMap, tableIndex_alignDownPage]
  | succ level ih => simp only [framesToMap, tableIndex_alignDownPage, ih]

theorem walk_alignDownPage (mem : Mem) (virt level table : Nat) :
    walk mem (alignDownPage virt) level table = walk mem virt level table := by
  have hframe : ∀ level entry, leafFrame level entry (alignDownPage virt) =
      leafFrame level entry virt := by
    intro level entry
    have hsplit : 2 ^ (12 + 9 * level) = pageSize * 2 ^ (9 * level) := Nat.pow_add 2 12 (9 * level)
    rw [leafFrame, leafFrame, hsplit, Nat.mod_mul_right_div_self, Nat.mod_mul_right_div_self,
      alignDownPage, Nat.mul_div_cancel _ (by decide)]
  induction level generalizing table with
  | zero => simp only [walk, tableIndex_alignDownPage, hframe]
  | succ level ih => simp only [walk, tableIndex_alignDownPage, hframe, ih]

theorem translate_alignDownPage (mem : Mem) (root virt : Nat) :
    translate mem root (alignDownPage virt) = translate mem root virt := by
  rw [PageTables.translate, walk_alignDownPage, PageTables.translate]

theorem translate_eq_none_iff {root : Nat} :
    translate mem root virt = none ↔ 0 < framesToMap mem virt 3 root := by
  rw [PageTables.translate, Option.map_eq_none_iff, walk_eq_none_iff]

structure PageAdded (s s' : PageState) (root virt : Nat) (writable : Bool)
    (levels levels' : Nat → Option Nat) (page : Translation) : Prop where
  tables : TableLevels s'.mem s'.pmm root levels'
  growth : TableGrowth s s' levels levels'
  translate : translate s'.mem root virt = some page
  writable : page.writable = writable
  user : page.user = true
  fresh : s.pmm.FreeAt page.frame
  zero : ∀ i, s'.mem page.frame i = 0

section MapPage

variable {s : PageState} {root virt phys : Nat} {pmm : Pmm} {levels : Nat → Option Nat}

variable (h : TableLevels s.mem s.pmm root levels)
include h

theorem zeroed_tables (hspec : Allocated s.pmm pmm phys) (virt : Nat) :
    TableLevels (s.zeroed phys pmm).mem pmm root levels ∧
      TableGrowth s (s.zeroed phys pmm) levels levels ∧
      framesToMap (s.zeroed phys pmm).mem virt 3 root = framesToMap s.mem virt 3 root := by
  have hmem : ∀ {t}, ¬ s.pmm.FreeAt t → ∀ i, (s.zeroed phys pmm).mem t i = s.mem t i :=
    fun {t} hused i => if_neg fun heq : t = phys => hused (heq ▸ hspec.free)
  have hfree : ∀ a, pmm.FreeAt a → s.pmm.FreeAt a := fun a hf => ((hspec.free_iff a).mp hf).1
  refine ⟨?_, ?_, ?_⟩
  · exact h.same hfree fun t l i ht _ => .inl (hmem (h.used t l ht) i)
  · exact .same hfree (fun t l i ht _ => .inl (hmem (h.used t l ht) i))
      fun t i _ hused => hmem hused i
  · exact h.framesToMap_congr (fun t l ht i => .inl (hmem (h.used t l ht) i)) h.root

omit h in
theorem LeafReady.translate (h : LeafReady mem virt 3 root leaf) (hframe : IsFrame phys)
    (writable : Bool) :
    ∃ page, translate (mem.setEntry leaf (tableIndex 0 virt) (makeEntry phys (pageFlags writable)))
        root virt = some page ∧
      page.frame = phys ∧ page.writable = writable ∧ page.user = true := by
  obtain ⟨entries, hwalk, hopen⟩ := h _ (isPresent_pageEntry phys writable)
  rw [leafFrame_pageEntry hframe] at hwalk
  -- the entries above the page are open, so its own entry decides
  have hall : ∀ flag, addrMask &&& flag = 0 → flagsMask &&& flag = flag →
      (∀ e ∈ entries, hasFlag e flag = true) →
      (entries ++ [makeEntry phys (pageFlags writable)]).all (hasFlag · flag) =
        hasFlag (pageFlags writable) flag := by
    intro flag haddr hflags hopen
    rw [List.all_append, List.all_eq_true.mpr hopen, Bool.true_and, List.all_cons, List.all_nil,
      Bool.and_true, hasFlag_makeEntry haddr hflags]
  refine ⟨_, by rw [PageTables.translate, hwalk]; rfl, rfl, ?_, ?_⟩
  · refine (hall PageTables.writable (by decide) (by decide) fun e he => (hopen e he).2).trans ?_
    cases writable <;> decide
  · refine (hall userAccessible (by decide) (by decide) fun e he => (hopen e he).1).trans ?_
    cases writable <;> decide

theorem setPage_tables (hleaf : levels leaf = some 0) (hslot : isPresent (s.mem leaf index) = false)
    (hframe : IsFrame phys) (hused : ¬ s.pmm.FreeAt phys) (hphys : levels phys = none)
    (flags : BitVec 64) :
    let s' := { s with mem := s.mem.setEntry leaf index (makeEntry phys flags) }
    TableLevels s'.mem s'.pmm root levels ∧ TableGrowth s s' levels levels := by
  refine ⟨h.same (fun _ hf => hf) ?_, .same (fun _ hf => hf) ?_ ?_⟩
  · intro t l i ht _
    by_cases heq : t = leaf ∧ i = index
    · obtain ⟨rfl, rfl⟩ := heq
      cases hleaf.symm.trans ht
      simp only [setEntry_self]
      refine .inr ⟨nofun, fun _ _ virt => ?_⟩
      rw [leafFrame_pageEntry hframe]
      exact ⟨hused, hphys⟩
    · exact .inl (if_neg heq)
  · intro t l i _ hpresent
    refine .inl (if_neg ?_)
    rintro ⟨rfl, rfl⟩
    rw [hslot] at hpresent
    cases hpresent
  · intro t i hnone _
    refine setEntry_of_ne ?_ _ _ _
    rintro rfl
    rw [hleaf] at hnone
    cases hnone

theorem mapUserPage_of_absent (habsent : 0 < framesToMap s.mem virt 3 root)
    (halloc : s.pmm.allocFrame = some (phys, pmm)) (writable : Bool) :
    (framesToMap s.mem virt 3 root ≤ s.pmm.freeCount ∧ ∃ s' levels' page,
      (s.zeroed phys pmm).mapUserPage root virt phys writable = (true, s') ∧
      PageAdded s s' root virt writable levels levels' page) ∨
    s.pmm.freeCount < framesToMap s.mem virt 3 root ∧
      ((s.zeroed phys pmm).mapUserPage root virt phys writable).1 = false := by
  have hspec := allocFrame_spec halloc
  have hcount : s.pmm.freeCount = pmm.freeCount + 1 := hspec.count
  have hframe := isFrame_of_freeAt hspec.free
  obtain ⟨hzeroed, hzeroedGrowth, hframes⟩ := zeroed_tables h hspec virt
  rcases leafTable_of_absent hzeroed h.root (hframes ▸ habsent) with
    ⟨leaf, s', levels', heq, htook, hlevels, hgrowth, hleaf, hslot, hready⟩ | ⟨s', heq, htook⟩
  · have htook : pmm.freeCount + 1 = s'.pmm.freeCount + framesToMap s.mem virt 3 root :=
      hframes ▸ htook
    have hused : ¬ (s.zeroed phys pmm).pmm.FreeAt phys := fun hfree =>
      ((hspec.free_iff phys).mp hfree).2 rfl
    have hold : levels phys = none := by
      cases hphys : levels phys with
      | none => rfl
      | some l => exact absurd hspec.free (h.used phys l hphys)
    have hphys : levels' phys = none := by
      cases hphys : levels' phys with
      | none => rfl
      | some l => exact absurd (hgrowth.fresh phys l hphys hold) hused
    obtain ⟨page, htranslate, hpage, hwritable, huser⟩ := hready.translate hframe writable
    have hzero : ∀ i, s'.mem.setEntry leaf (tableIndex 0 virt)
        (makeEntry phys (pageFlags writable)) phys i = 0 := by
      intro i
      rw [setEntry_of_ne (by rintro rfl; simp [hphys] at hleaf), hgrowth.other phys i hold hused]
      exact if_pos rfl
    obtain ⟨htables, hset⟩ := setPage_tables hlevels hleaf hslot hframe
      (fun hfree => hused (hgrowth.free phys hfree)) hphys (pageFlags writable)
    have hgrown := (hzeroedGrowth.trans hgrowth).trans hset
    refine .inl ⟨by omega, _, levels', page, by rw [PageState.mapUserPage, heq], ?_⟩
    exact ⟨htables, hgrown, htranslate, hwritable, huser, hpage ▸ hspec.free, hpage ▸ hzero⟩
  · refine .inr ⟨?_, ?_⟩
    · have htook : pmm.freeCount + 1 < framesToMap s.mem virt 3 root := hframes ▸ htook
      omega
    · rw [PageState.mapUserPage, heq]

end MapPage

section Handler

variable {s : SpaceState} {levels : Nat → Option Nat} {addr : Nat} {isWrite : Bool}

theorem handleDemandFault_of_absent (h : TableLevels s.mem s.pmm s.space.pml4 levels)
    (habsent : translate s.mem s.space.pml4 addr = none) (isWrite : Bool) :
    (∃ area s' levels' page, Admits s.space.vmas addr isWrite area ∧
      framesToMap s.mem addr 3 s.space.pml4 ≤ s.pmm.freeCount ∧
      s.handleDemandFault addr isWrite = (true, s') ∧ s'.space.pml4 = s.space.pml4 ∧
      PageAdded s.pages s'.pages s.space.pml4 addr area.isWritable levels levels' page) ∨
    (s.handleDemandFault addr isWrite).1 = false ∧
      ∀ area, Admits s.space.vmas addr isWrite area →
        s.pmm.freeCount < framesToMap s.mem addr 3 s.space.pml4 := by
  have hpos := translate_eq_none_iff.mp habsent
  have hframes : framesToMap s.pages.mem (alignDownPage addr) 3 s.space.pml4 =
      framesToMap s.mem addr 3 s.space.pml4 := framesToMap_alignDownPage _ _ _ _
  have hmapped : ∀ {area : VmArea} {ok : Bool} {phys : Nat} {after : PageState},
      s.MapsZeroed (alignDownPage addr) area.isWritable ok phys after →
      (framesToMap s.mem addr 3 s.space.pml4 ≤ s.pmm.freeCount ∧ ok = true ∧ ∃ levels' page,
        PageAdded s.pages after s.space.pml4 (alignDownPage addr) area.isWritable levels levels'
          page) ∨
      s.pmm.freeCount < framesToMap s.mem addr 3 s.space.pml4 ∧ ok = false := by
    rintro area ok phys after ⟨pmm, halloc, heq⟩
    have hmap := mapUserPage_of_absent (s := s.pages) h (hframes ▸ hpos) halloc area.isWritable
    rw [hframes, heq] at hmap
    rcases hmap with ⟨hcount, s', levels', page, heq, hadded⟩ | ⟨hcount, heq⟩
    · cases heq
      exact .inl ⟨hcount, rfl, levels', page, hadded⟩
    · exact .inr ⟨hcount, heq⟩
  have heffect := handleDemandFault_effect s addr isWrite
  generalize s.handleDemandFault addr isWrite = r at heffect
  cases heffect with
  | refused hnone => exact .inr ⟨rfl, fun area harea => absurd harea (hnone area)⟩
  | full halloc =>
    refine .inr ⟨rfl, fun _ _ => ?_⟩
    rw [freeCount_eq_zero halloc]
    exact hpos
  | failed _ hmap =>
    rcases hmapped hmap with ⟨-, hok, -⟩ | ⟨hcount, -⟩
    · cases hok
    · exact .inr ⟨rfl, fun _ _ => hcount⟩
  | @mapped _ area _ _ hadmits _ hmap =>
    rcases hmapped hmap with ⟨hcount, -, levels', page, hadded⟩ | ⟨-, hok⟩
    · refine .inl ⟨area, _, levels', page, hadmits, hcount, rfl, rfl, ?_⟩
      exact { hadded with
        translate := (translate_alignDownPage _ _ _).symm.trans hadded.translate }
    · cases hok

end Handler

end AuraOS.UserSpace
