import AuraOS.UserSpace

namespace AuraOS.UserSpace

open PhysicalFrames PageTables VirtualAreas

variable {area : VmArea} {vmas : List VmArea} {space space' : AddressSpace} {addrHint : Option Nat}
  {len vaddr idx : Nat} {flags : BitVec 32}

theorem overlaps_iff {start size : Nat} (h : start + size < 2 ^ 64) :
    area.overlaps start size = true ↔ area.start < start + size ∧ start < area.endAddr := by
  have hend : add64 start size = start + size := Nat.mod_eq_of_lt h
  simp [VmArea.overlaps, hend]

section Cut

variable {area : VmArea} {lo hi len : Nat}

theorem cut_of_disjoint (h : area.overlaps lo len = false) :
    VmArea.cut lo hi len area = [area] := by
  simp [VmArea.cut, h]

def VmArea.part (area : VmArea) (start stop : Nat) (pages : List (Nat × Nat)) : VmArea :=
  { area with start := start, size := sub64 stop start, populatedPages := pages }

theorem part_fields (start stop : Nat) (pages : List (Nat × Nat)) :
    (VmArea.part area start stop pages).start = start ∧
      (VmArea.part area start stop pages).size = sub64 stop start ∧
      (VmArea.part area start stop pages).name = area.name ∧
      (VmArea.part area start stop pages).populatedPages = pages :=
  ⟨rfl, rfl, rfl, rfl⟩

theorem cut_eq (hi : Nat) (hover : area.overlaps lo len = true) :
    ∃ front back, VmArea.cut lo hi len area =
        (if area.start < lo then [VmArea.part area area.start lo front] else []) ++
          (if hi < area.endAddr then [VmArea.part area hi area.endAddr back] else []) ∧
      (lo ≤ hi → (∀ entry ∈ area.populatedPages, area.contains entry.1 = true) →
        front = area.populatedPages.filter (·.1 < lo) ∧
          back = area.populatedPages.filter (hi ≤ ·.1)) := by
  have hfilter : (∀ entry ∈ area.populatedPages, area.contains entry.1 = true) →
      ∀ {p q : Nat × Nat → Bool}, (∀ entry, area.start ≤ entry.1 → entry.1 < area.endAddr →
        (p entry = true ↔ q entry = true)) →
          area.populatedPages.filter p = area.populatedPages.filter q := by
    refine fun hown p q h => List.filter_congr fun entry hentry => Bool.eq_iff_iff.mpr ?_
    have hin := hown entry hentry
    simp only [VmArea.contains, Bool.and_eq_true, decide_eq_true_eq] at hin
    exact h entry hin.1 hin.2
  simp only [VmArea.cut, hover, if_true, List.filter_filter]
  by_cases hfront : area.start < lo <;> by_cases hback : hi < area.endAddr
  · rw [if_neg (by omega), if_neg (by omega), if_neg (by omega)]
    refine ⟨_, _, by rw [if_pos hfront, if_pos hback]; rfl, fun hle hown =>
      ⟨hfilter hown ?_, hfilter hown ?_⟩⟩ <;> simp <;> omega
  · rw [if_neg (by omega), if_neg (by omega), if_pos (by omega)]
    refine ⟨_, _, by rw [if_pos hfront, if_neg hback]; rfl, fun hle hown =>
      ⟨hfilter hown ?_, rfl⟩⟩
    grind
  · rw [if_neg (by omega), if_pos (by omega)]
    refine ⟨_, _, by rw [if_neg hfront, if_pos hback]; rfl, fun hle hown =>
      ⟨rfl, hfilter hown ?_⟩⟩
    grind
  · rw [if_pos (by omega)]
    exact ⟨_, _, by rw [if_neg hfront, if_neg hback]; rfl, fun _ _ => ⟨rfl, rfl⟩⟩

theorem mem_cut {part : VmArea} (hpart : part ∈ VmArea.cut lo hi len area) :
    part = area ∧ area.overlaps lo len = false ∨ area.overlaps lo len = true ∧ ∃ pages,
      (area.start < lo ∧ part = { area with
          size := sub64 lo area.start, populatedPages := pages } ∨
        hi < area.endAddr ∧ part = { area with
          start := hi, size := sub64 area.endAddr hi, populatedPages := pages }) := by
  cases hover : area.overlaps lo len with
  | false =>
    rw [cut_of_disjoint hover] at hpart
    exact .inl ⟨List.mem_singleton.mp hpart, rfl⟩
  | true =>
    obtain ⟨front, back, heq, -⟩ := cut_eq hi hover
    rw [heq, List.mem_append, List.mem_ite_nil_right, List.mem_ite_nil_right, List.mem_singleton,
      List.mem_singleton] at hpart
    exact .inr ⟨rfl, hpart.elim (fun h => ⟨front, .inl h⟩) fun h => ⟨back, .inr h⟩⟩

end Cut

/-- The areas after `munmap`. -/
def unmapAreas (addr length : Nat) (vmas : List VmArea) : List VmArea :=
  if length = 0 ∨ addr % pageSize ≠ 0 then vmas
  else vmas.flatMap (VmArea.cut addr (add64 addr (alignUpPage length)) (alignUpPage length))

section Spaces

variable (s : SpaceState)

theorem munmap_space (addr length : Nat) :
    ∃ frames, (s.munmap addr length).2.space =
      { s.space with allocatedFrames := frames, vmas := unmapAreas addr length s.space.vmas } := by
  rw [SpaceState.munmap, unmapAreas]
  split
  · exact ⟨s.space.allocatedFrames, rfl⟩
  · exact ⟨_, rfl⟩

def PageState.zeroed (s : PageState) (phys : Nat) (pmm : Pmm) : PageState :=
  ⟨s.mem.zeroFrame phys, pmm, s.allocatedFrames ++ [phys]⟩

def SpaceState.MapsZeroed (virt : Nat) (writable ok : Bool) (phys : Nat) (after : PageState)
    : Prop :=
  ∃ pmm, s.pmm.allocFrame = some (phys, pmm) ∧
    (s.pages.zeroed phys pmm).mapUserPage s.space.pml4 virt phys writable = (ok, after)

def SpaceState.giveBack (phys : Nat) (after : PageState) : SpaceState :=
  s.setPages { after with pmm := (after.pmm.freeFrame phys).2 }

inductive PopulateRound (vaddr : Nat) (writable : Bool) (pages offset : Nat) (area : VmArea)
    (s : SpaceState) : Option VmArea × SpaceState → Prop
  | full (halloc : s.pmm.allocFrame = none) :
    PopulateRound vaddr writable pages offset area s (none, (s.munmap vaddr offset).2)
  | failed {phys : Nat} {after : PageState}
      (hmap : s.MapsZeroed (add64 vaddr offset) writable false phys after) :
    PopulateRound vaddr writable pages offset area s
      (none, ((s.giveBack phys after).munmap vaddr offset).2)
  | mapped {phys : Nat} {after : PageState}
      (hmap : s.MapsZeroed (add64 vaddr offset) writable true phys after) :
    PopulateRound vaddr writable pages offset area s
      (SpaceState.populate vaddr writable pages (offset + pageSize)
        (area.insertPage (add64 vaddr offset) phys) (s.setPages after))

theorem populate_round (vaddr : Nat) (writable : Bool) (pages offset : Nat) (area : VmArea)
    (s : SpaceState) :
    PopulateRound vaddr writable pages offset area s
      (SpaceState.populate vaddr writable (pages + 1) offset area s) := by
  rw [SpaceState.populate]
  split
  · rename_i halloc
    exact .full halloc
  · rename_i phys pmm halloc
    split
    · rename_i after hmap
      exact .failed ⟨pmm, halloc, hmap⟩
    · rename_i after hmap
      exact .mapped ⟨pmm, halloc, hmap⟩

def Admits (vmas : List VmArea) (addr : Nat) (isWrite : Bool) (area : VmArea) : Prop :=
  vmas.find? (·.contains addr) = some area ∧ area.isGuardPage = false ∧ area.prot ≠ protNone ∧
    (isWrite = true → area.isWritable = true)

/-- What `handle_demand_fault` does. -/
inductive FaultEffect (s : SpaceState) (addr : Nat) (isWrite : Bool) : Bool × SpaceState → Prop
  | refused (hnone : ∀ area, ¬ Admits s.space.vmas addr isWrite area) :
    FaultEffect s addr isWrite (false, s)
  | full (halloc : s.pmm.allocFrame = none) : FaultEffect s addr isWrite (false, s)
  | failed {area : VmArea} {phys : Nat} {after : PageState}
      (hadmits : Admits s.space.vmas addr isWrite area)
      (hmap : s.MapsZeroed (alignDownPage addr) area.isWritable false phys after) :
    FaultEffect s addr isWrite (false, s.giveBack phys after)
  | mapped {idx : Nat} {area : VmArea} {phys : Nat} {after : PageState}
      (hadmits : Admits s.space.vmas addr isWrite area) (hget : s.space.vmas[idx]? = some area)
      (hmap : s.MapsZeroed (alignDownPage addr) area.isWritable true phys after) :
    FaultEffect s addr isWrite (true, (s.setPages after).setVmas
      (s.space.vmas.set idx (area.insertPage (alignDownPage addr) phys)))

theorem handleDemandFault_effect (addr : Nat) (isWrite : Bool) :
    FaultEffect s addr isWrite (s.handleDemandFault addr isWrite) := by
  have hfind : s.space.vmas.find? (·.contains addr) =
      (s.space.vmas.findIdx? (·.contains addr)).bind (s.space.vmas[·]?) :=
    List.find?_eq_bind_findIdx?_getElem?
  rw [SpaceState.handleDemandFault]
  split
  · rename_i hidx
    refine .refused fun area hadmits => ?_
    rw [Admits, hfind, hidx] at hadmits
    cases hadmits.1
  rename_i idx hidx
  rw [hidx, Option.bind_some] at hfind
  split
  · rename_i hget
    refine .refused fun area hadmits => ?_
    rw [Admits, hfind, hget] at hadmits
    cases hadmits.1
  rename_i area hget
  have hfirst : ∀ other, Admits s.space.vmas addr isWrite other → other = area := fun other h =>
    Option.some.inj (h.1.symm.trans (hfind.trans hget))
  rw [hget] at hfind
  split
  · rename_i hguard
    refine .refused fun other hadmits => ?_
    obtain rfl := hfirst other hadmits
    simp [hadmits.2.1, hadmits.2.2.1] at hguard
  rename_i hguard
  split
  · rename_i hwrite
    refine .refused fun other hadmits => ?_
    obtain rfl := hfirst other hadmits
    rw [Bool.and_eq_true, Bool.not_eq_true'] at hwrite
    rw [hadmits.2.2.2 hwrite.1] at hwrite
    cases hwrite.2
  rename_i hwrite
  have hadmits : Admits s.space.vmas addr isWrite area := by
    simp only [Bool.or_eq_true, not_or, beq_iff_eq, Bool.not_eq_true] at hguard
    exact ⟨hfind, hguard.1, hguard.2, fun hw => by simpa [hw] using hwrite⟩
  split
  · rename_i halloc
    exact .full halloc
  rename_i phys pmm halloc
  simp only
  split
  · rename_i after hmap
    exact .failed hadmits ⟨pmm, halloc, hmap⟩
  · rename_i after hmap
    exact .mapped hadmits hget ⟨pmm, halloc, hmap⟩

theorem populate_space (vaddr : Nat) (writable : Bool) (pages offset : Nat) (area : VmArea)
    (s : SpaceState) :
    let r := SpaceState.populate vaddr writable pages offset area s
    ∃ frames,
      (∃ area', r.1 = some area' ∧
        area' = { area with populatedPages := area'.populatedPages } ∧
        r.2.space = { s.space with allocatedFrames := frames }) ∨
      r.1 = none ∧ ∃ k < pages, r.2.space = { s.space with
        allocatedFrames := frames
        vmas := unmapAreas vaddr (offset + k * pageSize) s.space.vmas } := by
  induction pages generalizing offset area s with
  | zero => exact ⟨s.space.allocatedFrames, .inl ⟨area, rfl, rfl, rfl⟩⟩
  | succ pages ih =>
    have hround := populate_round vaddr writable pages offset area s
    generalize SpaceState.populate vaddr writable (pages + 1) offset area s = r at hround
    cases hround with
    | full =>
      obtain ⟨frames, hspace⟩ := munmap_space s vaddr offset
      refine ⟨frames, .inr ⟨rfl, 0, Nat.succ_pos pages, ?_⟩⟩
      rw [hspace, Nat.zero_mul, Nat.add_zero]
    | @failed phys after =>
      obtain ⟨frames, hspace⟩ := munmap_space (s.giveBack phys after) vaddr offset
      refine ⟨frames, .inr ⟨rfl, 0, Nat.succ_pos pages, ?_⟩⟩
      rw [hspace, Nat.zero_mul, Nat.add_zero]
      rfl
    | @mapped phys after =>
      obtain ⟨frames, ⟨area', hsome, harea, hspace⟩ | ⟨hnone, k, hk, hspace⟩⟩ :=
        ih (offset + pageSize) (area.insertPage (add64 vaddr offset) phys) (s.setPages after)
      · exact ⟨frames, .inl ⟨area', hsome, harea, hspace⟩⟩
      · refine ⟨frames, .inr ⟨hnone, k + 1, Nat.succ_lt_succ hk, ?_⟩⟩
        rw [hspace, Nat.succ_mul, Nat.add_comm (k * pageSize), ← Nat.add_assoc]
        rfl

theorem handleDemandFault_space (faultAddr : Nat) (isWrite : Bool) :
    ∃ frames vmas, (s.handleDemandFault faultAddr isWrite).2.space =
        { s.space with allocatedFrames := frames, vmas := vmas } ∧
      (vmas = s.space.vmas ∨ ∃ idx area page phys, s.space.vmas[idx]? = some area ∧
        vmas = s.space.vmas.set idx (area.insertPage page phys)) := by
  have heffect := handleDemandFault_effect s faultAddr isWrite
  generalize s.handleDemandFault faultAddr isWrite = r at heffect
  cases heffect with
  | refused => exact ⟨_, _, rfl, .inl rfl⟩
  | full => exact ⟨_, _, rfl, .inl rfl⟩
  | failed => exact ⟨_, _, rfl, .inl rfl⟩
  | mapped _ hget => exact ⟨_, _, rfl, .inr ⟨_, _, _, _, hget, rfl⟩⟩

structure HeapMoved (stop heapStart : Nat) (vmas : List VmArea) (area : VmArea) : Prop where
  name : area.name = .heap
  size : area.size = sub64 stop area.start
  start : area.start = heapStart ∨ ∃ old ∈ vmas, old.name = .heap ∧ old.start = area.start

theorem mem_resizeHeap {stop heapStart : Nat} {vmas : List VmArea}
    (h : area ∈ resizeHeap stop vmas) :
    area ∈ vmas ∨ HeapMoved stop heapStart vmas area := by
  induction vmas with
  | nil => cases h
  | cons head rest ih =>
    rw [resizeHeap] at h
    split at h
    · rename_i hname
      rcases List.mem_cons.mp h with rfl | hrest
      · exact .inr ⟨hname, rfl, .inr ⟨head, .head _, hname, rfl⟩⟩
      · exact .inl (.tail head hrest)
    · rcases List.mem_cons.mp h with rfl | hrest
      · exact .inl (.head _)
      · rcases ih hrest with hmem | ⟨hname, hsize, hstart⟩
        · exact .inl (.tail head hmem)
        · exact .inr ⟨hname, hsize, hstart.imp_right fun ⟨old, hold, hsame⟩ =>
            ⟨old, .tail head hold, hsame⟩⟩

theorem split_at (h : vmas[idx]? = some area) :
    ∃ before after, vmas = before ++ area :: after ∧
      vmas.eraseIdx idx = before ++ after ∧ ∀ x, vmas.set idx x = before ++ x :: after := by
  obtain ⟨hidx, hget⟩ := List.getElem?_eq_some_iff.mp h
  refine ⟨vmas.take idx, vmas.drop (idx + 1), ?_, List.eraseIdx_eq_take_drop_succ _ _, ?_⟩
  · rw [← hget, List.getElem_cons_drop, List.take_append_drop]
  · intro x
    rw [List.set_eq_take_append_cons_drop, if_pos hidx]

theorem split_at_first {p : VmArea → Bool} (hidx : vmas.findIdx? p = some idx)
    (hget : vmas[idx]? = some area) :
    p area = true ∧ ∃ before after, vmas = before ++ area :: after ∧
      (∀ a ∈ before, p a = false) ∧ vmas.eraseIdx idx = before ++ after ∧
      ∀ x, vmas.set idx x = before ++ x :: after := by
  obtain ⟨hlen, hp, hfirst⟩ := List.findIdx?_eq_some_iff_getElem.mp hidx
  have harea := (List.getElem?_eq_some_iff.mp hget).2
  rw [harea] at hp
  refine ⟨hp, vmas.take idx, vmas.drop (idx + 1), ?_, ?_, List.eraseIdx_eq_take_drop_succ _ _, ?_⟩
  · rw [← harea, List.getElem_cons_drop, List.take_append_drop]
  · intro a ha
    obtain ⟨j, hj, rfl⟩ := List.mem_take_iff_getElem.mp ha
    simpa using hfirst j (by omega)
  · intro x
    rw [List.set_eq_take_append_cons_drop, if_pos hlen]

/-- A growing `brk` is refused, or it moves the end of a heap area or makes one, over a range
that meets no other area. -/
inductive ExpandEffect (space : AddressSpace) (newBrk : Nat) : AddressSpace → Prop
  | refused : ExpandEffect space newBrk space
  | extended {before after : List VmArea} {area : VmArea}
      (hsplit : space.vmas = before ++ area :: after) (hname : area.name = .heap)
      (hfree : ∀ a ∈ before ++ after,
        a.overlaps area.start (sub64 (alignUpPage newBrk) area.start) = false) :
      ExpandEffect space newBrk { space with
        vmas := before ++ { area with size := sub64 (alignUpPage newBrk) area.start } :: after
        heapEnd := newBrk }
  | created (hfree : ∀ a ∈ space.vmas,
        a.overlaps space.heapStart (sub64 (alignUpPage newBrk) space.heapStart) = false) :
      ExpandEffect space newBrk { space with
        vmas := space.vmas ++ [VmArea.new space.heapStart
          (sub64 (alignUpPage newBrk) space.heapStart) (protRead ||| protWrite)
          (mapPrivate ||| mapAnonymous) false .heap]
        heapEnd := newBrk }

theorem expandHeap_effect (space : AddressSpace) (newBrk : Nat) :
    ExpandEffect space newBrk (space.expandHeap newBrk) := by
  simp only [AddressSpace.expandHeap]
  split
  · rename_i pos hpos
    split
    · exact .refused
    rename_i area hget
    split
    · exact .refused
    rename_i hover
    obtain ⟨hname, before, after, hsplit, -, herase, hset⟩ := split_at_first hpos hget
    rw [hset]
    rw [herase] at hover
    rw [Bool.not_eq_true, List.any_eq_false] at hover
    exact .extended hsplit (by simpa using hname) fun a ha =>
      Bool.eq_false_of_not_eq_true (hover a ha)
  · split
    · exact .refused
    rename_i hover
    exact .created (by simpa using hover)

theorem expandHeap_space (space : AddressSpace) (newBrk : Nat) :
    space.expandHeap newBrk = space ∨ ∃ vmas,
      space.expandHeap newBrk = { space with vmas := vmas, heapEnd := newBrk } ∧
      ∀ area ∈ vmas, area ∈ space.vmas ∨
        HeapMoved (alignUpPage newBrk) space.heapStart space.vmas area := by
  have heffect := expandHeap_effect space newBrk
  generalize space.expandHeap newBrk = space' at heffect ⊢
  cases heffect with
  | refused => exact .inl rfl
  | extended hsplit hname =>
    refine .inr ⟨_, rfl, fun area harea => ?_⟩
    rw [hsplit]
    rcases List.mem_append.mp harea with hmem | hmem
    · exact .inl (List.mem_append_left _ hmem)
    · rcases List.mem_cons.mp hmem with rfl | hmem
      · exact .inr ⟨hname, rfl, .inr ⟨_, by simp, hname, rfl⟩⟩
      · exact .inl (by simp [hmem])
  | created =>
    refine .inr ⟨_, rfl, fun area harea => ?_⟩
    rcases List.mem_append.mp harea with hmem | hmem
    · exact .inl hmem
    · rw [List.mem_singleton.mp hmem]
      exact .inr ⟨rfl, rfl, .inl rfl⟩

theorem shrinkHeap_space (newBrk : Nat) :
    ∃ frames, (s.shrinkHeap newBrk).space = { s.space with
      allocatedFrames := frames
      vmas := resizeHeap (alignUpPage newBrk) (unmapAreas (alignUpPage newBrk)
        (alignUpPage s.space.heapEnd - alignUpPage newBrk) s.space.vmas)
      heapEnd := newBrk } := by
  simp only [SpaceState.shrinkHeap]
  split
  · obtain ⟨frames, hspace⟩ := munmap_space s (alignUpPage newBrk)
      (alignUpPage s.space.heapEnd - alignUpPage newBrk)
    exact ⟨frames, by rw [hspace]⟩
  · rename_i hle
    refine ⟨s.space.allocatedFrames, ?_⟩
    rw [unmapAreas, if_pos (.inl (Nat.sub_eq_zero_of_le (Nat.not_lt.mp hle)))]

theorem brk_cases (newBrk : Nat) :
    (s.brk newBrk).2 = s ∧ (newBrk = s.space.heapEnd ∨
        ¬ (s.space.heapStart ≤ newBrk ∧ newBrk ≤ mmapBaseStart ∧ newBrk ≠ 0)) ∨
      (s.space.heapStart ≤ newBrk ∧ newBrk ≤ mmapBaseStart ∧ newBrk ≠ 0) ∧
        (s.space.heapEnd < newBrk ∧
            (s.brk newBrk).2 = { s with space := s.space.expandHeap newBrk } ∨
          newBrk < s.space.heapEnd ∧ (s.brk newBrk).2 = s.shrinkHeap newBrk) := by
  simp only [SpaceState.brk]
  split
  · exact .inl ⟨rfl, .inr (by omega)⟩
  split
  · exact .inl ⟨rfl, .inl (by assumption)⟩
  split
  · exact .inl ⟨rfl, .inr (by omega)⟩
  refine .inr ⟨by omega, ?_⟩
  split
  · exact .inl ⟨by assumption, rfl⟩
  · exact .inr ⟨by omega, rfl⟩

/-- An area that `mmap` makes. -/
def IsMapping (vaddr length : Nat) (prot flags : BitVec 32) (area : VmArea) : Prop :=
  area = { VmArea.new vaddr (alignUpPage length) prot flags false .mmap with
    populatedPages := area.populatedPages }

/-- What `mmap` does to the space, by its result. -/
inductive MmapEffect (s : SpaceState) (addrHint : Option Nat) (length : Nat)
    (prot flags : BitVec 32) : Except VmmError Nat → AddressSpace → Prop
  | refused {e : VmmError} : MmapEffect s addrHint length prot flags (.error e) s.space
  | rolledBack {vaddr : Nat} {space : AddressSpace} {frames : List Nat} {k : Nat}
      (hlength : length ≠ 0) (hpopulate : flags &&& mapPopulate ≠ 0)
      (hchoose : s.space.chooseRange addrHint (alignUpPage length) flags = .ok (vaddr, space))
      (hk : k < alignUpPage length / pageSize) :
      MmapEffect s addrHint length prot flags (.error .outOfMemory) { space with
        allocatedFrames := frames
        vmas := unmapAreas vaddr (k * pageSize) space.vmas }
  | mapped {vaddr : Nat} {space : AddressSpace} {frames : List Nat} {area : VmArea}
      (hlength : length ≠ 0)
      (hchoose : s.space.chooseRange addrHint (alignUpPage length) flags = .ok (vaddr, space))
      (harea : IsMapping vaddr length prot flags area) :
      MmapEffect s addrHint length prot flags (.ok vaddr) { space with
        allocatedFrames := frames
        vmas := space.vmas ++ [area] }

theorem mmap_effect (addrHint : Option Nat) (length : Nat) (prot flags : BitVec 32) :
    MmapEffect s addrHint length prot flags (s.mmap addrHint length prot flags).1
      (s.mmap addrHint length prot flags).2.space := by
  simp only [SpaceState.mmap]
  split
  · exact .refused
  rename_i hlength
  split
  · exact .refused
  rename_i vaddr space hchoose
  split
  · rename_i hpopulate
    have hspace := populate_space vaddr (prot &&& protWrite != 0) (alignUpPage length / pageSize) 0
      (VmArea.new vaddr (alignUpPage length) prot flags false .mmap) { s with space := space }
    split
    · rename_i after hpop
      rw [hpop] at hspace
      obtain ⟨frames, ⟨_, hsome, _⟩ | ⟨_, k, hk, hspace⟩⟩ := hspace
      · cases hsome
      · rw [Nat.zero_add] at hspace
        rw [hspace]
        exact .rolledBack hlength hpopulate hchoose hk
    · rename_i area after hpop
      rw [hpop] at hspace
      obtain ⟨frames, ⟨area', hsome, harea, hspace⟩ | ⟨hnone, _⟩⟩ := hspace
      · cases hsome
        have hafter : after.space = { space with allocatedFrames := frames } := hspace
        simp only [SpaceState.setVmas, hafter]
        exact .mapped hlength hchoose harea
      · cases hnone
  · exact .mapped hlength hchoose rfl

end Spaces

theorem chooseRange_fixed (hflags : flags &&& mapFixed ≠ 0)
    (h : space.chooseRange addrHint len flags = .ok (vaddr, space')) :
    addrHint = some vaddr ∧ space' = space ∧ vaddr % pageSize = 0 ∧
      ∀ area ∈ space.vmas, area.overlaps vaddr len = false := by
  simp only [AddressSpace.chooseRange, if_pos hflags] at h
  split at h
  · cases h
  · rename_i req
    split at h
    · cases h
    · rename_i haligned
      split at h
      · cases h
      · rename_i hany
        cases h
        rw [Bool.not_eq_true, List.any_eq_false] at hany
        exact ⟨rfl, rfl, not_not.mp haligned, fun area harea =>
          Bool.not_eq_true _ ▸ hany area harea⟩

theorem chooseRange_search (hflags : flags &&& mapFixed = 0)
    (h : space.chooseRange addrHint len flags = .ok (vaddr, space')) :
    searchRange space.vmas len (space.vmas.length + 1) (space.firstCandidate addrHint) =
        some vaddr ∧
      space' = { space with mmapBumpPtr := alignUpPage (add64 vaddr len) } := by
  simp only [AddressSpace.chooseRange, hflags, ne_eq, not_true_eq_false, if_false] at h
  split at h
  · cases h
  · rename_i candidate hsearch
    cases h
    exact ⟨hsearch, rfl⟩

theorem searchRange_induction {P : Nat → Prop} {rounds candidate found : Nat}
    (hjump : ∀ candidate existing, P candidate → add64 candidate len ≤ mmapBaseEnd →
      vmas.find? (·.overlaps candidate len) = some existing → P (alignUpPage existing.endAddr))
    (hstart : P candidate) (h : searchRange vmas len rounds candidate = some found) :
    P found ∧ add64 found len ≤ mmapBaseEnd ∧ ∀ area ∈ vmas, area.overlaps found len = false := by
  induction rounds generalizing candidate with
  | zero => cases h
  | succ rounds ih =>
    rw [searchRange] at h
    split at h
    · rename_i hfits
      split at h
      · rename_i existing hfind
        exact ih (hjump candidate existing hstart hfits hfind) h
      · rename_i hnone
        cases h
        exact ⟨hstart, hfits,
          fun area harea => by simpa using List.find?_eq_none.mp hnone area harea⟩
    · cases h

theorem firstCandidate_aligned (space : AddressSpace) (addrHint : Option Nat) :
    space.firstCandidate addrHint % pageSize = 0 := by
  have hmax : ∀ a, a % pageSize = 0 → max a mmapBaseStart % pageSize = 0 := by
    intro a ha
    rcases max_choice a mmapBaseStart with hm | hm
    · rw [hm]
      exact ha
    · rw [hm]
      decide
  refine hmax _ ?_
  cases hhinted : (addrHint.map alignUpPage).filter fun a =>
      mmapBaseStart ≤ a && a < mmapBaseEnd with
  | none => exact Nat.mul_mod_left _ _
  | some a =>
    obtain ⟨ha, -⟩ := Option.filter_eq_some_iff.mp hhinted
    obtain ⟨hint, -, rfl⟩ := Option.map_eq_some_iff.mp ha
    exact Nat.mul_mod_left _ _

theorem chooseRange_free (h : space.chooseRange addrHint len flags = .ok (vaddr, space')) :
    vaddr % pageSize = 0 ∧ ∀ area ∈ space.vmas, area.overlaps vaddr len = false := by
  by_cases hflags : flags &&& mapFixed = 0
  · obtain ⟨hsearch, -⟩ := chooseRange_search hflags h
    obtain ⟨haligned, -, hfree⟩ := searchRange_induction (P := fun addr => addr % pageSize = 0)
      (fun _ _ _ _ _ => Nat.mul_mod_left _ _) (firstCandidate_aligned space addrHint) hsearch
    exact ⟨haligned, hfree⟩
  · obtain ⟨-, -, haligned, hfree⟩ := chooseRange_fixed hflags h
    exact ⟨haligned, hfree⟩

theorem chooseRange_same (h : space.chooseRange addrHint len flags = .ok (vaddr, space')) :
    space' = { space with mmapBumpPtr := space'.mmapBumpPtr } := by
  by_cases hflags : flags &&& mapFixed = 0
  · obtain ⟨-, rfl⟩ := chooseRange_search hflags h
    rfl
  · obtain ⟨-, rfl, -⟩ := chooseRange_fixed hflags h
    rfl

theorem new_space {kernelCr3 : Nat} {mem mem' : Mem} {pmm pmm' : Pmm}
    (h : AddressSpace.new kernelCr3 mem pmm = (some space, mem', pmm')) :
    ∃ pml4 frames, space =
      ⟨pml4, frames, [], mmapBaseStart, defaultUserHeapStart, defaultUserHeapStart⟩ := by
  simp only [AddressSpace.new] at h
  split at h
  · cases h
  split at h
  · split at h
    · cases h
    · cases h
      exact ⟨_, _, rfl⟩
  · cases h
    exact ⟨_, _, rfl⟩

end AuraOS.UserSpace
