import AuraOS.SpaceLifecycle

namespace AuraOS.UserSpace

open ElfLoader PathTrees PhysicalFrames PageTables VirtualAreas Function

variable {kern : KernelTables} {root virt vaddr id : Nat} {s : SpaceState} {tree : TableTree}
  {mem mem' : Mem} {pmm' : Pmm}

inductive SpaceOp where
  | mmap (addrHint : Option Nat) (length : Nat) (prot flags : BitVec 32)
  | munmap (addr length : Nat)
  | brk (newBrk : Nat)
  | fault (faultAddr : Nat) (isWrite : Bool)
  | mapPage (virt : Nat) (writable : Bool)
  | code (base : Nat) (bytes : List (BitVec 8))
  | stack (top numPages : Nat)

def SpaceState.perform (s : SpaceState) : SpaceOp → SpaceState
  | .mmap addrHint length prot flags => (s.mmap addrHint length prot flags).2
  | .munmap addr length => (s.munmap addr length).2
  | .brk newBrk => (s.brk newBrk).2
  | .fault faultAddr isWrite => (s.handleDemandFault faultAddr isWrite).2
  | .mapPage virt writable =>
    s.setPages (s.pages.allocateAndMapPage s.space.pml4 virt writable).2
  | .code base bytes => (s.allocateUserCode base bytes).2
  | .stack top numPages => (s.allocateUserStack top numPages).2

/-- The pages that `allocate_user_code` maps. -/
def codePages (bytes : List (BitVec 8)) : Nat :=
  (bytes.length + (pageSize - 1)) / pageSize

/-- The pages that the call maps or finds mapped are private; unless `gaps` holds, the
frames do not run out between a page and its tables where that frees the page. -/
def OpFits (kern : KernelTables) (gaps : Prop) (s : SpaceState) : SpaceOp → Prop
  | .mmap addrHint length _ flags => MmapFits kern gaps s addrHint length flags
  | .munmap addr length => MunmapFits kern s addr length
  | .brk _ => True
  | .fault faultAddr isWrite => FaultFits kern gaps s faultAddr isWrite
  | .mapPage virt _ => kern.Private virt
  | .code base bytes => ∀ i < codePages bytes, kern.Private (add64 base (i * pageSize))
  | .stack top numPages => ∀ j, 1 ≤ j → j < 1 + numPages →
      kern.Private (sub64 top (j * pageSize % 2 ^ 64))

theorem perform_run {gaps : Prop} (h : OwnsPages s.pages kern s.space.pml4 tree)
    (hheap : HeapBounds s.space) (op : SpaceOp) (hfits : OpFits kern gaps s op) :
    (∃ tree', PageRun kern s.space.pml4 gaps (s.pages, tree) ((s.perform op).pages, tree')) ∧
      (s.perform op).space.pml4 = s.space.pml4 ∧ HeapBounds (s.perform op).space ∧
      (OpFits kern False s op ∨ (s.perform op).ListsFree) := by
  cases op with
  | mmap addrHint length prot flags =>
    have hsame := mmap_sameSpace s addrHint length prot flags
    obtain ⟨tree', hrun, hgap⟩ := mmap_run h addrHint length prot flags hfits
    exact ⟨⟨tree', hrun⟩, hsame.pml4, hsame.heapBounds hheap, hgap⟩
  | munmap addr length =>
    have hsame := munmap_sameSpace s addr length
    obtain ⟨tree', removed, hshrunk⟩ := munmap_shrunk h addr length hfits
    exact ⟨⟨tree', .single (.unmap hshrunk)⟩, hsame.pml4, hsame.heapBounds hheap, .inl hfits⟩
  | brk newBrk =>
    obtain ⟨hpml4, hbounds⟩ := brk_bounds s hheap newBrk
    exact ⟨brk_run h hheap newBrk, hpml4, hbounds, .inl trivial⟩
  | fault faultAddr isWrite =>
    have hsame := handleDemandFault_sameSpace s faultAddr isWrite
    obtain ⟨tree', hrun, hgap⟩ := handleDemandFault_run h faultAddr isWrite hfits
    exact ⟨⟨tree', hrun⟩, hsame.pml4, hsame.heapBounds hheap, hgap⟩
  | mapPage virt writable =>
    exact ⟨allocateAndMapPage_run gaps h (fun _ => hfits) writable, rfl,
      ⟨hheap.start, hheap.low, hheap.high⟩, .inl hfits⟩
  | code base bytes =>
    have hpages : ∀ virt ∈ pagesFrom base 0 (codePages bytes), kern.Private virt := by
      intro virt hvirt
      obtain ⟨i, hi, rfl⟩ := mem_pagesFrom hvirt
      rw [Nat.zero_add]
      exact hfits i hi
    exact ⟨mapCode_run bytes (codePages bytes) 0 gaps h hpages, rfl,
      ⟨hheap.start, hheap.low, hheap.high⟩, .inl hfits⟩
  | stack top numPages =>
    have hsame := allocateUserStack_sameSpace (s := s) top numPages
    exact ⟨allocateUserStack_run top numPages gaps h hfits, hsame.pml4, hsame.heapBounds hheap,
      .inl hfits⟩

def InWindow (addr length : Nat) : Prop :=
  0x40000000 ≤ addr ∧ addr + length ≤ 0xC0000000

attribute [grind =] InWindow

def OpInWindow (s : SpaceState) : SpaceOp → Prop
  | .mmap addrHint length _ flags => length ≠ 0 → ∀ vaddr space,
      s.space.chooseRange addrHint (alignUpPage length) flags = .ok (vaddr, space) →
        InWindow vaddr (alignUpPage length)
  | .munmap addr length => length ≠ 0 → InWindow addr length
  | .brk _ => True
  | .fault faultAddr _ => InWindow faultAddr 1
  | .mapPage virt _ => InWindow virt 1
  | .code base bytes => InWindow base bytes.length
  | .stack top numPages => ∃ base, InWindow base (numPages * pageSize) ∧
      top = base + numPages * pageSize

theorem inWindow_of_chosen {addrHint : Option Nat} {length len flags start vaddr : Nat}
    {chosen : AddressSpace} (hstart : (s.space.chooseRange addrHint length flags).toOption.map
      Prod.fst = some start) (hwindow : InWindow start len)
    (h : s.space.chooseRange addrHint length flags = .ok (vaddr, chosen)) : InWindow vaddr len := by
  rw [h] at hstart
  cases hstart
  exact hwindow

section Window

variable {kern : KernelTables}

theorem private_of_inWindow {addr length : Nat} (h : InWindow addr length) (hlow : addr ≤ virt)
    (hhigh : virt < addr + length) : kern.Private virt :=
  private_of_window ⟨Nat.le_trans h.1 hlow, Nat.lt_of_lt_of_le hhigh h.2⟩

theorem private_of_mem_pagesFrom {alignedLen : Nat} (h : InWindow vaddr alignedLen)
    (hmem : virt ∈ pagesFrom vaddr 0 (alignedLen / pageSize)) : kern.Private virt := by
  obtain ⟨i, hi, rfl⟩ := mem_pagesFrom hmem
  refine private_of_window ?_
  grind

theorem opFits_of_inWindow {op : SpaceOp} (h : OpInWindow s op) : OpFits kern True s op := by
  cases op with
  | mmap addrHint length prot flags =>
    intro hlength _ vaddr space hchoose
    exact mapsPages_of_private fun virt hvirt =>
      private_of_mem_pagesFrom (h hlength vaddr space hchoose) hvirt
  | munmap addr length =>
    intro hlength haligned i hi
    have hwindow := h hlength
    refine .inl (private_of_window ?_)
    simp only [InWindow, unmapCount, alignUpPage, add64, pageSize] at *
    omega
  | brk newBrk => trivial
  | fault faultAddr isWrite =>
    intro _
    refine mapsPages_of_private fun virt hvirt => ?_
    rw [List.mem_singleton.mp hvirt]
    refine private_of_window ?_
    simp only [OpInWindow, InWindow, alignDownPage, pageSize] at *
    omega
  | mapPage virt writable =>
    exact private_of_inWindow h (Nat.le_refl virt) (Nat.lt_succ_self virt)
  | code base bytes =>
    intro i hi
    refine private_of_window ?_
    simp only [OpInWindow, InWindow, codePages, add64, pageSize] at *
    omega
  | stack top numPages =>
    obtain ⟨base, hwindow, rfl⟩ := h
    intro j hj hlt
    refine private_of_window ?_
    grind

end Window

/-- The memory, the frames and the live spaces; `count` spaces were made so far. -/
structure World where
  mem : Mem
  pmm : Pmm
  spaces : Nat → Option AddressSpace
  count : Nat

inductive WorldEvent where
  | new
  | load (data : List (BitVec 8)) (stray : Nat → BitVec 8)
  | perform (id : Nat) (op : SpaceOp)
  | drop (id : Nat)

def World.add (w : World) (space : AddressSpace) (mem : Mem) (pmm : Pmm) : World :=
  ⟨mem, pmm, update w.spaces w.count (some space), w.count + 1⟩

def World.step (kernelCr3 : Nat) (w : World) : WorldEvent → World
  | .new =>
    match AddressSpace.new kernelCr3 w.mem w.pmm with
    | (none, mem, pmm) => { w with mem := mem, pmm := pmm }
    | (some space, mem, pmm) => w.add space mem pmm
  | .load data stray =>
    match loadElf kernelCr3 data stray w.mem w.pmm with
    | (.error _, mem, pmm) => { w with mem := mem, pmm := pmm }
    | (.ok loaded, mem, pmm) => w.add loaded.space mem pmm
  | .perform id op =>
    match w.spaces id with
    | none => w
    | some space =>
      let s := SpaceState.perform ⟨w.mem, w.pmm, space⟩ op
      ⟨s.mem, s.pmm, update w.spaces id (some s.space), w.count⟩
  | .drop id =>
    match w.spaces id with
    | none => w
    | some space =>
      { w with pmm := space.drop w.pmm, spaces := update w.spaces id none }

structure Within (own : Nat → Prop) (mem : Mem) (pmm : Pmm) (mem' : Mem) (pmm' : Pmm) : Prop where
  mem : ∀ t, ¬ own t → ¬ pmm.FreeAt t → ∀ i, mem' t i = mem t i
  used : ∀ a, pmm.UsedAt a → ¬ own a → pmm'.UsedAt a
  free : ∀ a, pmm'.FreeAt a → pmm.FreeAt a ∨ own a

section Within

variable {own : Nat → Prop} {mem mem' : Mem} {pmm pmm' : Pmm} {kern : KernelTables}

theorem Spared.within (h : Spared mem pmm mem' pmm') : Within (fun _ => False) mem pmm mem' pmm' :=
  ⟨fun t _ => h.mem t, fun a ha _ => h.used a ha, fun a ha => .inl (h.free a ha)⟩

theorem Within.owns (h : Within own mem pmm mem' pmm') {listed : List Nat}
    (howns : OwnsPages ⟨mem, pmm, listed⟩ kern root tree) (hapart : ∀ a, tree.Has a → ¬ own a) :
    OwnsPages ⟨mem', pmm', listed⟩ kern root tree where
  rep := howns.rep.congr fun path t ht _ =>
    h.mem t (hapart t ⟨path, ht⟩) (howns.not_free ⟨path, ht⟩)
  used := fun a ha => h.used a (howns.used a ha) (hapart a ha)

theorem Within.kernelRoot (h : Within own mem pmm mem' pmm') {kernelCr3 : Nat}
    (hkernel : KernelRoot mem pmm kern kernelCr3) (hpml4 : ¬ own kernelCr3)
    (hpdpt : ¬ own (entryAddr (kern.pml4 0))) : KernelRoot mem' pmm' kern kernelCr3 where
  pml4 := by
    rw [← hkernel.pml4]
    exact funext fun i => h.mem kernelCr3 hpml4 hkernel.pml4NotFree i
  pdpt := by
    rw [← hkernel.pdpt]
    exact funext fun i => h.mem _ hpdpt hkernel.pdptNotFree i
  pml4NotFree := fun hfree => (h.free _ hfree).elim hkernel.pml4NotFree hpml4
  pdptNotFree := fun hfree => (h.free _ hfree).elim hkernel.pdptNotFree hpdpt

end Within

/-- The kernel's tables and the live spaces, each with its tree and with the frames it
claims, which include the tree's. -/
structure WorldOk (kern : KernelTables) (kernelCr3 : Nat) (w : World) (trees : Nat → TableTree)
    (claims : Nat → Nat → Prop) : Prop where
  kernel : KernelRoot w.mem w.pmm kern kernelCr3
  tables : ∀ virt, ∀ t ∈ walkTables w.mem virt 3 kernelCr3,
    ¬ w.pmm.FreeAt t ∧ ∀ id, w.spaces id ≠ none → ¬ claims id t
  owns : ∀ id space, w.spaces id = some space →
    OwnsPages ⟨w.mem, w.pmm, space.allocatedFrames⟩ kern space.pml4 (trees id)
  heap : ∀ id space, w.spaces id = some space → HeapBounds space
  has : ∀ id a, w.spaces id ≠ none → (trees id).Has a → claims id a
  used : ∀ id a, w.spaces id ≠ none → claims id a → w.pmm.UsedAt a
  apart : ∀ i j a, i ≠ j → w.spaces i ≠ none → w.spaces j ≠ none → claims i a → ¬ claims j a
  fresh : ∀ id, w.count ≤ id → w.spaces id = none

def World.claimed (w : World) (claims : Nat → Nat → Prop) (id a : Nat) : Prop :=
  w.spaces id ≠ none ∧ claims id a

structure Renewed (kern : KernelTables) (w : World) (old : Nat → Prop) (mem' : Mem) (pmm' : Pmm)
    (space : AddressSpace) (tree : TableTree) (claim : Nat → Prop) : Prop where
  owns : OwnsPages ⟨mem', pmm', space.allocatedFrames⟩ kern space.pml4 tree
  heap : HeapBounds space
  has : ∀ a, tree.Has a → claim a
  used : ∀ a, claim a → pmm'.UsedAt a
  origin : ∀ a, claim a → old a ∨ w.pmm.FreeAt a

section WorldOk

variable {kern : KernelTables} {kernelCr3 : Nat} {w : World} {trees : Nat → TableTree}
  {claims : Nat → Nat → Prop}

theorem pml4_mem_walkTables (mem : Mem) (virt : Nat) :
    kernelCr3 ∈ walkTables mem virt 3 kernelCr3 := by
  exact .head _

theorem KernelRoot.pdpt_mem {pmm : Pmm} (h : KernelRoot mem pmm kern kernelCr3) :
    entryAddr (kern.pml4 0) ∈ walkTables mem 0 3 kernelCr3 := by
  have hindex : tableIndex 3 0 = 0 := rfl
  have hleaf : isLeaf 3 (kern.pml4 0) = false := by simp [isLeaf]
  rw [walkTables, h.pml4]
  simp only [Nat.reduceAdd, hindex, kern.first, hleaf, Bool.not_false, Bool.and_self, if_true]
  exact .tail _ (.head _)

variable (h : WorldOk kern kernelCr3 w trees claims)
include h

theorem WorldOk.same_tables (hwithin : Within (w.claimed claims id) w.mem w.pmm mem' pmm')
    (virt : Nat) : ∀ t ∈ walkTables w.mem virt 3 kernelCr3, ∀ i, mem' t i = w.mem t i := by
  intro t ht
  obtain ⟨hfree, hclaim⟩ := h.tables virt t ht
  exact hwithin.mem t (fun hown => hclaim id hown.1 hown.2) hfree

theorem WorldOk.set {count : Nat}
    (hwithin : Within (w.claimed claims id) w.mem w.pmm mem' pmm') (space : Option AddressSpace)
    (tree : TableTree) (claim : Nat → Prop) (hspace : ∀ new, space = some new →
      Renewed kern w (w.claimed claims id) mem' pmm' new tree claim) (hcount : w.count ≤ count)
    (hid : id < count) :
    WorldOk kern kernelCr3 ⟨mem', pmm', update w.spaces id space, count⟩
      (update trees id tree) (update claims id claim) := by
  have hlive : ∀ {j}, j ≠ id → update w.spaces id space j ≠ none → w.spaces j ≠ none := by
    intro j hj hnew
    rwa [update_of_ne hj] at hnew
  have hget : ∀ {j new}, update w.spaces id space j = some new →
      j = id ∧ space = some new ∨ j ≠ id ∧ w.spaces j = some new := by
    intro j new hj
    by_cases hjid : j = id
    · rw [hjid, update_self] at hj
      exact .inl ⟨hjid, hj⟩
    · rw [update_of_ne hjid] at hj
      exact .inr ⟨hjid, hj⟩
  have hself : update w.spaces id space id ≠ none → ∃ new, space = some new := by
    rw [update_self]
    exact Option.ne_none_iff_exists'.mp
  have hother : ∀ {j a}, j ≠ id → w.spaces j ≠ none → claims j a → ¬ w.claimed claims id a :=
    fun hj hjlive hclaim hown => h.apart _ _ _ hj hjlive hown.1 hclaim hown.2
  have htables := h.same_tables hwithin
  have hpml4 := (h.tables 0 _ (pml4_mem_walkTables w.mem 0)).2
  have hpdpt := (h.tables 0 _ h.kernel.pdpt_mem).2
  refine ⟨hwithin.kernelRoot h.kernel (fun hown => hpml4 id hown.1 hown.2)
    (fun hown => hpdpt id hown.1 hown.2), ?_, ?_, ?_, ?_, ?_, ?_, ?_⟩
  · intro virt t ht
    rw [walkTables_congr 3 kernelCr3 (htables virt)] at ht
    obtain ⟨hfree, hclaim⟩ := h.tables virt t ht
    refine ⟨fun hfree' => (hwithin.free t hfree').elim hfree fun hown => hclaim id hown.1 hown.2,
      ?_⟩
    intro j hj
    by_cases hjid : j = id
    · subst hjid
      obtain ⟨new, hnew⟩ := hself hj
      rw [update_self]
      intro hclaimed
      exact ((hspace new hnew).origin t hclaimed).elim (fun hown => hclaim j hown.1 hown.2) hfree
    · rw [update_of_ne hjid]
      exact hclaim j (hlive hjid hj)
  · intro j new hj
    rcases hget hj with ⟨rfl, hnew⟩ | ⟨hjid, hj⟩
    · rw [update_self]
      exact (hspace new hnew).owns
    · rw [update_of_ne hjid]
      have hjlive : w.spaces j ≠ none := by simp [hj]
      exact hwithin.owns (h.owns j new hj) fun a ha =>
        hother hjid hjlive (h.has j a hjlive ha)
  · intro j new hj
    rcases hget hj with ⟨-, hnew⟩ | ⟨-, hj⟩
    · exact (hspace new hnew).heap
    · exact h.heap j new hj
  · intro j a hj ha
    by_cases hjid : j = id
    · subst hjid
      obtain ⟨new, hnew⟩ := hself hj
      rw [update_self] at ha ⊢
      exact (hspace new hnew).has a ha
    · rw [update_of_ne hjid] at ha ⊢
      exact h.has j a (hlive hjid hj) ha
  · intro j a hj ha
    by_cases hjid : j = id
    · subst hjid
      obtain ⟨new, hnew⟩ := hself hj
      rw [update_self] at ha
      exact (hspace new hnew).used a ha
    · rw [update_of_ne hjid] at ha
      have hjlive := hlive hjid hj
      exact hwithin.used a (h.used j a hjlive ha) (hother hjid hjlive ha)
  · -- what the space claims now was free or its own, and neither was claimed by another
    have hone : ∀ {j a}, j ≠ id → w.spaces j ≠ none → (∃ new, space = some new) → claim a →
        ¬ claims j a := by
      rintro j a hj hjlive ⟨new, hnew⟩ hclaim hclaimj
      rcases (hspace new hnew).origin a hclaim with hown | hfree
      · exact hother hj hjlive hclaimj hown
      · exact (h.used j a hjlive hclaimj).not_freeAt hfree
    intro i j a hij hi hj ha
    by_cases hiid : i = id
    · subst hiid
      rw [update_self] at ha
      rw [update_of_ne hij.symm]
      exact hone hij.symm (hlive hij.symm hj) (hself hi) ha
    · rw [update_of_ne hiid] at ha
      by_cases hjid : j = id
      · subst hjid
        rw [update_self]
        exact fun hclaim => hone hiid (hlive hiid hi) (hself hj) hclaim ha
      · rw [update_of_ne hjid]
        exact h.apart i j a hij (hlive hiid hi) (hlive hjid hj) ha
  · intro j hj
    have hne : j ≠ id := (Nat.lt_of_lt_of_le hid hj).ne'
    exact (update_of_ne hne _ _).trans (h.fresh j (Nat.le_trans hcount hj))

theorem WorldOk.spare (hspared : Spared w.mem w.pmm mem' pmm') :
    WorldOk kern kernelCr3 { w with mem := mem', pmm := pmm' } trees claims := by
  have hwithin := hspared.within
  have hkernel := hwithin.kernelRoot h.kernel id id
  refine ⟨hkernel, ?_, ?_, h.heap, h.has, ?_, h.apart, h.fresh⟩
  · intro virt t ht
    have hsame := walkTables_congr 3 kernelCr3 fun t ht =>
      hspared.mem t (h.tables virt t ht).1
    rw [hsame] at ht
    obtain ⟨hfree, hclaim⟩ := h.tables virt t ht
    exact ⟨fun hfree' => hfree (hspared.free t hfree'), hclaim⟩
  · intro j space hj
    exact hwithin.owns (h.owns j space hj) fun _ _ => id
  · intro j a hj ha
    exact hspared.used a (h.used j a hj ha)

end WorldOk

end AuraOS.UserSpace
