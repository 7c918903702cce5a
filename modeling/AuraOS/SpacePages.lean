import AuraOS.AreaPlacement
import AuraOS.AddressIsolation
import AuraOS.PageEntries
import AuraOS.VirtualAreasInvariant

namespace AuraOS.UserSpace

open GuardedRuns IntervalLists PathTrees PhysicalFrames PageTables VirtualAreas

variable {lo hi stop root virt w addr length len vaddr phys offset faultAddr idx newBrk : Nat}
  {entry : BitVec 64} {p area area' : VmArea} {vmas : List VmArea} {mem filled after : Mem}
  {space : AddressSpace} {addrHint : Option Nat} {flags prot : BitVec 32} {s s' : SpaceState}
  {tree : TableTree}

def records (vmas : List VmArea) : List (Nat × Nat) :=
  vmas.flatMap VmArea.populatedPages

def outside (lo hi : Nat) (entry : Nat × Nat) : Bool :=
  !(lo ≤ entry.1 && entry.1 < hi)

theorem outside_iff {entry : Nat × Nat} :
    outside lo hi entry = true ↔ entry.1 < lo ∨ hi ≤ entry.1 := by
  simp only [outside, Bool.not_eq_true', Bool.and_eq_false_iff, decide_eq_false_iff_not, not_le,
    not_lt]

section Areas

structure AreaPages (area : VmArea) : Prop where
  ok : AreaOk area
  window : InWindow area.start area.size
  own : ∀ entry ∈ area.populatedPages, area.start ≤ entry.1 ∧ entry.1 < area.start + area.size

variable {area : VmArea} {lo hi : Nat}

theorem AreaPages.endAddr (h : AreaPages area) : area.endAddr = area.start + area.size := by
  have hwindow := h.window
  refine endAddr_eq_of_low ?_
  grind

theorem AreaPages.resize (h : AreaPages area) (hstop : stop % pageSize = 0)
    (hle : area.start + area.size ≤ stop) (hwindow : stop ≤ 0xC0000000) :
    AreaPages { area with size := stop - area.start } := by
  have hpos := h.ok.pos
  have hold := h.window
  refine ⟨h.ok.resize hstop (by omega) (by omega), ?_, fun entry hentry => ?_⟩
  · grind
  · have hown := h.own entry hentry
    simp only
    omega

theorem cut_records (h : AreaPages area) (hle : lo ≤ hi) (hlow : hi ≤ 2 ^ 48) :
    (∀ p ∈ VmArea.cut lo hi (hi - lo) area, ∀ entry ∈ p.populatedPages,
      p.start ≤ entry.1 ∧ entry.1 < p.start + p.size) ∧
    (records (VmArea.cut lo hi (hi - lo) area)).Perm
      (area.populatedPages.filter (outside lo hi)) := by
  have hend := h.endAddr
  have hwindow := h.window
  simp only [InWindow] at hwindow
  cases hover : area.overlaps lo (hi - lo) with
  | false =>
    rw [cut_of_disjoint hover]
    rw [overlaps_eq_false_iff h.ok (by omega)] at hover
    simp only [Interval.Disjoint, Interval.stop, interval] at hover
    refine ⟨by simpa using h.own, ?_⟩
    rw [List.filter_eq_self.mpr]
    · simp [records]
    · intro entry hentry
      have hown := h.own entry hentry
      rw [outside_iff]
      omega
  | true =>
    obtain ⟨front, back, heq, hpages⟩ := cut_eq hi hover
    obtain ⟨rfl, rfl⟩ := hpages hle fun entry hentry => by
      simpa [VmArea.contains, hend] using h.own entry hentry
    rw [heq, hend]
    refine ⟨fun p hp entry hentry => ?_, ?_⟩
    · simp only [List.mem_append, List.mem_ite_nil_right, List.mem_singleton] at hp
      rcases hp with ⟨hlt, rfl⟩ | ⟨hlt, rfl⟩ <;>
        simp only [part_fields, List.mem_filter, decide_eq_true_eq, sub64] at hentry ⊢ <;>
        have hown := h.own entry hentry.1 <;> omega
    · -- a part that is missing would record no page
      have hfront : records (if area.start < lo then [VmArea.part area area.start lo
          (area.populatedPages.filter (·.1 < lo))] else []) =
            area.populatedPages.filter (·.1 < lo) := by
        split
        · simp [records, part_fields]
        · refine (List.filter_eq_nil_iff.mpr fun entry hentry => ?_).symm
          have hown := h.own entry hentry
          grind
      have hback : records (if hi < area.start + area.size then [VmArea.part area hi
          (area.start + area.size) (area.populatedPages.filter (hi ≤ ·.1))] else []) =
            area.populatedPages.filter (hi ≤ ·.1) := by
        split
        · simp [records, part_fields]
        · refine (List.filter_eq_nil_iff.mpr fun entry hentry => ?_).symm
          have hown := h.own entry hentry
          grind
      have hsplit := List.filter_append_perm (fun entry : Nat × Nat => entry.1 < lo)
        (area.populatedPages.filter (outside lo hi))
      simp only [List.filter_filter] at hsplit
      rw [records, List.flatMap_append, ← records, ← records, hfront, hback]
      refine (List.Perm.of_eq (congrArg₂ _ ?_ ?_)).trans hsplit <;>
        refine List.filter_congr fun entry _ => Bool.eq_iff_iff.mpr ?_ <;>
        simp only [Bool.and_eq_true, outside_iff, decide_eq_true_eq, Bool.not_eq_true',
          decide_eq_false_iff_not] <;> omega

theorem cut_areaPages (h : AreaPages area) (hle : lo ≤ hi) (hlow : hi ≤ 2 ^ 48)
    (hlo : lo % pageSize = 0) (hhi : hi % pageSize = 0) (hp : p ∈ VmArea.cut lo hi (hi - lo) area) :
    AreaPages p := by
  have hpieces := cut_pieces h.ok hle hlow hlo hhi
  refine ⟨hpieces.ok p hp, ?_, (cut_records h hle hlow).1 p hp⟩
  have hinside := hpieces.inside p hp
  have hwindow := h.window
  grind

theorem cutAll_records (h : ∀ area ∈ vmas, AreaPages area) (hle : lo ≤ hi) (hlow : hi ≤ 2 ^ 48) :
    (records (cutAll lo hi vmas)).Perm ((records vmas).filter (outside lo hi)) := by
  induction vmas with
  | nil => simp [records, cutAll]
  | cons area rest ih =>
    have hfirst := (cut_records (h area (.head _)) hle hlow).2
    have hrest := ih fun a ha => h a (.tail _ ha)
    simp only [records, cutAll, List.flatMap_cons, List.flatMap_append, List.filter_append] at *
    exact hfirst.append hrest

end Areas

section Pages

variable {kern : KernelTables} {s : SpaceState} {tree : TableTree}

theorem pte_alignDownPage (mem : Mem) (root virt : Nat) :
    pte mem root (alignDownPage virt) = pte mem root virt := by
  rw [pte, walk_alignDownPage, pte]

theorem PageSet.self (h : PageSet mem filled after kern root virt entry) (hw : kern.Private w)
    (hpage : w / pageSize = virt / pageSize) : pte after root w = some entry := by
  rw [h.entries w hw, if_pos (path_congr hpage)]

theorem PageSet.other (h : PageSet mem filled after kern root virt entry) (hw : kern.Private w)
    (hlow : w < 2 ^ 48) (hvirt : virt < 2 ^ 48) (hpage : w / pageSize ≠ virt / pageSize) :
    pte after root w = pte mem root w := by
  rw [h.entries w hw, if_neg (fun hpath => hpage ((path_inj hlow hvirt).mp hpath))]

theorem alignUpPage_inWindow (haligned : addr % pageSize = 0) (h : InWindow addr length) :
    InWindow addr (alignUpPage length) ∧ alignUpPage length % pageSize = 0 ∧
      length ≤ alignUpPage length := by
  grind

theorem munmap_pages_eq (s : SpaceState) (haligned : addr % pageSize = 0) (hpos : 0 < length)
    (hwindow : InWindow addr length) :
    let after := PageState.unmapPages s.space.pml4 (alignUpPage length / pageSize) addr s.pages
    (s.munmap addr length).2.mem = after.mem ∧ (s.munmap addr length).2.pmm = after.pmm := by
  obtain ⟨hrange, -, -⟩ := alignUpPage_inWindow haligned hwindow
  have hend : add64 addr (alignUpPage length) - addr = alignUpPage length := by
    simp only [InWindow, add64] at *
    omega
  have hargs : ¬ (length = 0 ∨ addr % pageSize ≠ 0) := by omega
  simp only [SpaceState.munmap, if_neg hargs, hend]
  exact ⟨rfl, rfl⟩

theorem window_private (hwindow : InWindow addr len) :
    ∀ i < len / pageSize, kern.Private (addr + i * pageSize) := by
  intro i hi
  refine private_of_window ?_
  grind

variable (h : OwnsPages s.pages kern s.space.pml4 tree)
include h

theorem munmap_pages (haligned : addr % pageSize = 0)
    (hpos : 0 < length) (hwindow : InWindow addr length) (hw : kern.Private w) (hlow : w < 2 ^ 48) :
    pte (s.munmap addr length).2.mem s.space.pml4 w =
      if addr ≤ w ∧ w < addr + alignUpPage length then none else pte s.mem s.space.pml4 w := by
  obtain ⟨hrange, hwhole, -⟩ := alignUpPage_inWindow haligned hwindow
  have hhit : (∃ i < alignUpPage length / pageSize, path w = path (addr + i * pageSize)) ↔
      addr ≤ w ∧ w < addr + alignUpPage length := by
    constructor
    · rintro ⟨i, hi, hpath⟩
      have hpage := (path_inj hlow (by grind)).mp hpath
      grind
    · rintro ⟨hlo, hhi⟩
      refine ⟨(w - addr) / pageSize, ?_, path_congr ?_⟩ <;> grind
  rw [(munmap_pages_eq s haligned hpos hwindow).1,
    (unmapPages_pages h (window_private hrange)).1 w hw]
  exact if_congr hhit rfl rfl

theorem munmap_freed (haligned : addr % pageSize = 0)
    (hpos : 0 < length) (hwindow : InWindow addr length) (a : Nat) :
    (s.munmap addr length).2.pmm.FreeAt a ↔ s.pmm.FreeAt a ∨ ∃ page, page % pageSize = 0 ∧
      addr ≤ page ∧ page < addr + alignUpPage length ∧
        pageFrame s.mem s.space.pml4 page = some a := by
  obtain ⟨hrange, hwhole, -⟩ := alignUpPage_inWindow haligned hwindow
  rw [(munmap_pages_eq s haligned hpos hwindow).2, (unmapPages_pages h (window_private hrange)).2]
  refine or_congr_right ⟨?_, ?_⟩
  · rintro ⟨i, hi, hframe⟩
    refine ⟨addr + i * pageSize, ?_, ?_, ?_, hframe⟩ <;> grind
  · rintro ⟨page, hpage, hlo, hhi, hframe⟩
    have hi : addr + (page - addr) / pageSize * pageSize = page := by
      grind
    refine ⟨(page - addr) / pageSize, ?_, ?_⟩
    · grind
    · rw [hi]
      exact hframe

omit h in
theorem insertPage_populatedPages (area : VmArea) {page : Nat}
    (h : ∀ entry ∈ area.populatedPages, entry.1 ≠ page) (phys : Nat) :
    (area.insertPage page phys).populatedPages = (page, phys) :: area.populatedPages := by
  rw [VmArea.insertPage, List.filter_eq_self.mpr]
  intro entry hentry
  simpa using h entry hentry

theorem mapZeroed_pages (hpriv : kern.Private virt)
    {writable ok : Bool} {after : PageState} (hmap : s.MapsZeroed virt writable ok phys after) :
    (ok = true → IsFrame phys ∧ PageSet s.mem (s.mem.zeroFrame phys) after.mem kern s.space.pml4
      virt (makeEntry phys (pageFlags writable))) ∧
    (ok = false → ∀ w, kern.Private w →
      pte after.mem s.space.pml4 w = pte s.mem s.space.pml4 w) := by
  obtain ⟨tree', tables, hattempt⟩ := populate_attempt h hpriv hmap
  obtain ⟨pmm, halloc, hmap⟩ := hmap
  have hmem : ∀ t ≠ phys, ∀ i, s.pages.mem.zeroFrame phys t i = s.pages.mem t i :=
    fun _ ht _ => if_neg ht
  have hpages := mapUserPage_pages h hpriv halloc hmem writable
  rw [PageState.zeroed] at hmap
  simp only [hmap] at hpages
  exact hpages.imp_left fun hset hok =>
    ⟨hattempt.owns.isFrame ⟨_, (hattempt.mapped hok).1⟩, hset hok⟩

omit h in
structure FaultResolved (kern : KernelTables) (s s' : SpaceState) (faultAddr idx : Nat)
    (area : VmArea) (phys : Nat) : Prop where
  first : s.space.vmas.find? (·.contains faultAddr) = some area
  position : s.space.vmas[idx]? = some area
  contains : area.contains faultAddr = true
  notGuard : area.isGuardPage = false
  accessible : area.prot ≠ protNone
  vmas : s'.space.vmas = s.space.vmas.set idx (area.insertPage (alignDownPage faultAddr) phys)
  frame : IsFrame phys
  page : PageSet s.mem (s.mem.zeroFrame phys) s'.mem kern s.space.pml4 (alignDownPage faultAddr)
    (makeEntry phys (pageFlags area.isWritable))

theorem handleDemandFault_pages (hpriv : kern.Private (alignDownPage faultAddr)) (isWrite : Bool) :
    let r := s.handleDemandFault faultAddr isWrite
    (r.1 = false ∧ r.2.space.vmas = s.space.vmas ∧
      ∀ w, kern.Private w → pte r.2.mem s.space.pml4 w = pte s.mem s.space.pml4 w) ∨
    (r.1 = true ∧ ∃ idx area phys, FaultResolved kern s r.2 faultAddr idx area phys) := by
  have heffect := handleDemandFault_effect s faultAddr isWrite
  generalize s.handleDemandFault faultAddr isWrite = r at heffect
  cases heffect with
  | refused => exact .inl ⟨rfl, rfl, fun _ _ => rfl⟩
  | full => exact .inl ⟨rfl, rfl, fun _ _ => rfl⟩
  | failed _ hmap => exact .inl ⟨rfl, rfl, (mapZeroed_pages h hpriv hmap).2 rfl⟩
  | mapped hadmits hget hmap =>
    obtain ⟨hfind, hguard, hprot, -⟩ := hadmits
    obtain ⟨hphys, hset⟩ := (mapZeroed_pages h hpriv hmap).1 rfl
    exact .inr ⟨rfl, _, _, _, hfind, hget, by simpa using List.find?_some hfind, hguard, hprot,
      rfl, hphys, hset⟩

end Pages

section Populating

variable {kern : KernelTables} {mem₀ mem after : Mem} {root vaddr size : Nat} {writable : Bool}
  {pages : List (Nat × Nat)}

/-- The pages of a range are mapped to the listed frames, which are clear; the other
pages are as in `mem₀`. -/
structure Populated (kern : KernelTables) (mem₀ mem : Mem) (root vaddr size : Nat)
    (writable : Bool) (pages : List (Nat × Nat)) : Prop where
  nodup : (pages.map Prod.fst).Nodup
  keys : ∀ page, page ∈ pages.map Prod.fst ↔
    page % pageSize = 0 ∧ vaddr ≤ page ∧ page < vaddr + size
  entries : ∀ page phys, (page, phys) ∈ pages →
    IsFrame phys ∧ pte mem root page = some (makeEntry phys (pageFlags writable)) ∧
      ∀ i, mem phys i = 0
  others : ∀ w, kern.Private w → w < 2 ^ 48 → ¬ (vaddr ≤ w ∧ w < vaddr + size) →
    pte mem root w = pte mem₀ root w

theorem Populated.nil (kern : KernelTables) (mem : Mem) (root vaddr : Nat) (writable : Bool) :
    Populated kern mem mem root vaddr 0 writable [] := by
  refine ⟨List.nodup_nil, fun page => ?_, nofun, fun _ _ _ _ => rfl⟩
  grind

theorem Populated.next (h : Populated kern mem₀ mem root vaddr size writable pages)
    (hphys : IsFrame phys) (haligned : vaddr % pageSize = 0) (hsize : size % pageSize = 0)
    (hwindow : InWindow vaddr (size + pageSize))
    (hset : PageSet mem (mem.zeroFrame phys) after kern root (vaddr + size)
      (makeEntry phys (pageFlags writable))) :
    Populated kern mem₀ after root vaddr (size + pageSize) writable
      ((vaddr + size, phys) :: pages) := by
  have hps : pageSize = 4096 := rfl
  have hpriv : ∀ w, vaddr ≤ w → w < vaddr + (size + pageSize) → kern.Private w := fun w =>
    private_of_inWindow hwindow
  have hkept : ∀ w, kern.Private w → w < 2 ^ 48 → w / pageSize ≠ (vaddr + size) / pageSize →
      pte after root w = pte mem root w := fun w hw hlow hne =>
    hset.other hw hlow (by grind) hne
  refine ⟨?_, ?_, ?_, ?_⟩
  · rw [List.map_cons, List.nodup_cons, h.keys]
    exact ⟨by omega, h.nodup⟩
  · intro page
    rw [List.map_cons, List.mem_cons, h.keys]
    grind
  · intro page phys' hmem
    rcases List.mem_cons.mp hmem with heq | hmem
    · cases heq
      have hpage := hset.self (hpriv _ (Nat.le_add_right _ _) (by omega)) rfl
      refine ⟨hphys, hpage, fun i => ?_⟩
      have hclear := hset.contents _ (hpriv _ (Nat.le_add_right _ _) (by omega)) _ hpage i
      rw [entryAddr_makeEntry hphys] at hclear
      exact hclear.trans (if_pos rfl)
    · obtain ⟨hframe, hpage, hzero⟩ := h.entries page phys' hmem
      obtain ⟨hmod, hlo, hhi⟩ := (h.keys page).mp (List.mem_map.mpr ⟨_, hmem, rfl⟩)
      have hpagePriv := hpriv page hlo (by omega)
      have hafter : pte after root page = some (makeEntry phys' (pageFlags writable)) := by
        rw [hkept page hpagePriv (by grind)
          (by grind), hpage]
      refine ⟨hframe, hafter, fun i => ?_⟩
      have hclear := hset.contents _ hpagePriv _ hafter i
      rw [entryAddr_makeEntry hframe] at hclear
      rw [hclear, Mem.zeroFrame]
      split
      · rfl
      · exact hzero i
  · intro w hw hlow hout
    rw [hkept w hw hlow (by grind)]
    exact h.others w hw hlow (by omega)

theorem rollback_pages (howns : OwnsPages s.pages kern s.space.pml4 tree)
    (hothers : ∀ w, kern.Private w → w < 2 ^ 48 → ¬ (vaddr ≤ w ∧ w < vaddr + size) →
      pte s.mem s.space.pml4 w = pte mem₀ s.space.pml4 w) (haligned : vaddr % pageSize = 0)
    (hsize : size % pageSize = 0) (hwindow : InWindow vaddr size)
    (habsent : ∀ w, vaddr ≤ w → w < vaddr + size → pte mem₀ s.space.pml4 w = none)
    (hw : kern.Private w) (hlow : w < 2 ^ 48) :
    pte (s.munmap vaddr size).2.mem s.space.pml4 w = pte mem₀ s.space.pml4 w := by
  rcases Nat.eq_zero_or_pos size with rfl | hpos
  · rw [munmap_refused (.inl rfl)]
    exact hothers w hw hlow (by omega)
  have hwhole : alignUpPage size = size := by
    refine alignUpPage_of_aligned ?_ hsize
    grind
  rw [munmap_pages howns haligned hpos hwindow hw hlow, hwhole]
  split
  · rename_i hin
    exact (habsent w hin.1 hin.2).symm
  · rename_i hout
    exact hothers w hw hlow hout

theorem populate_pages (writable : Bool) (haligned : vaddr % pageSize = 0)
    (hwindow : InWindow vaddr len) {pages : Nat} (area : VmArea)
    (h : OwnsPages s.pages kern s.space.pml4 tree) (hoffset : offset % pageSize = 0)
    (hlen : offset + pages * pageSize = len)
    (habsent : ∀ w, vaddr ≤ w → w < vaddr + len → pte mem₀ s.space.pml4 w = none)
    (hdone : Populated kern mem₀ s.mem s.space.pml4 vaddr offset writable area.populatedPages) :
    let r := SpaceState.populate vaddr writable pages offset area s
    (r.1 = none → ∀ w, kern.Private w → w < 2 ^ 48 →
      pte r.2.mem s.space.pml4 w = pte mem₀ s.space.pml4 w) ∧
      ∀ area', r.1 = some area' →
        Populated kern mem₀ r.2.mem s.space.pml4 vaddr len writable area'.populatedPages := by
  induction pages generalizing offset area s tree with
  | zero =>
    refine ⟨nofun, ?_⟩
    intro area' harea
    cases harea
    have hoff : offset = len := by omega
    exact hoff ▸ hdone
  | succ pages ih =>
    have hpage : add64 vaddr offset = vaddr + offset := by
      grind
    have hpriv : kern.Private (vaddr + offset) :=
      private_of_inWindow hwindow (Nat.le_add_right _ _) (by grind)
    have hpart : InWindow vaddr offset := by
      grind
    have hback : ∀ w, vaddr ≤ w → w < vaddr + offset → pte mem₀ s.space.pml4 w = none :=
      fun w hlo hhi => habsent w hlo (by omega)
    have hround := populate_round vaddr writable pages offset area s
    generalize SpaceState.populate vaddr writable (pages + 1) offset area s = r at hround
    rw [← hpage] at hpriv
    cases hround with
    | full => exact ⟨fun _ w => rollback_pages h hdone.others haligned hoffset hpart hback, nofun⟩
    | @failed phys after hmap =>
      have hkept := (mapZeroed_pages h hpriv hmap).2 rfl
      obtain ⟨tree', tables, hmap⟩ := populate_attempt h hpriv hmap
      refine ⟨fun _ w => rollback_pages (s := s.giveBack phys after) hmap.confined_free.owns
        (fun w hw hlow hout => ?_) haligned hoffset hpart hback, nofun⟩
      exact (hkept w hw).trans (hdone.others w hw hlow hout)
    | @mapped phys after hmap =>
      obtain ⟨hphys, hset⟩ := (mapZeroed_pages h hpriv hmap).1 rfl
      obtain ⟨tree', tables, hmap⟩ := populate_attempt h hpriv hmap
      rw [hpage] at hset ⊢
      have hnext := hdone.next hphys haligned hoffset (by grind) hset
      have hnew : ∀ entry ∈ area.populatedPages, entry.1 ≠ vaddr + offset := by
        intro entry hentry heq
        have hkey := (hdone.keys entry.1).mp (List.mem_map.mpr ⟨_, hentry, rfl⟩)
        omega
      have hinserted := insertPage_populatedPages area hnew phys
      refine ih (area.insertPage (vaddr + offset) phys) (s := s.setPages after) hmap.owns ?_ ?_
        habsent ?_
      · grind
      · rw [← hlen, Nat.succ_mul]
        omega
      · rw [hinserted]
        exact hnext

end Populating

section Heap

theorem records_set (h : vmas[idx]? = some area) {pages : List (Nat × Nat)}
    (hpages : area'.populatedPages = pages ++ area.populatedPages) :
    (pages ++ records vmas).Perm (records (vmas.set idx area')) := by
  obtain ⟨before, after, hsplit, -, hset⟩ := split_at h
  rw [hset, hsplit]
  simp only [records, List.flatMap_append, List.flatMap_cons, hpages, List.append_assoc]
  exact List.perm_append_comm_assoc _ _ _

theorem forall_mem_set {p : VmArea → Prop} (h : ∀ a ∈ vmas, p a) (harea : p area') :
    ∀ a ∈ vmas.set idx area', p a := by
  intro a ha
  rcases List.mem_or_eq_of_mem_set ha with ha | rfl
  · exact h a ha
  · exact harea

structure HeapAreas (stop : Nat) (vmas : List VmArea) : Prop where
  areas : ∀ area ∈ vmas, AreaPages area
  heap : ∀ area ∈ vmas, area.name = .heap → area.start + area.size ≤ stop

theorem HeapAreas.append (h : HeapAreas stop vmas) (harea : AreaPages area)
    (hheap : area.name = .heap → area.start + area.size ≤ stop) :
    HeapAreas stop (vmas ++ [area]) := by
  refine ⟨fun a ha => ?_, fun a ha hname => ?_⟩
  · rcases List.mem_append.mp ha with ha | ha
    · exact h.areas a ha
    · rw [List.mem_singleton.mp ha]
      exact harea
  · rcases List.mem_append.mp ha with ha | ha
    · exact h.heap a ha hname
    · rw [List.mem_singleton.mp ha] at hname ⊢
      exact hheap hname

structure HeapResized (stop : Nat) (vmas vmas' before : List VmArea) (area : VmArea)
    (after : List VmArea) : Prop where
  split : vmas = before ++ area :: after
  name : area.name = .heap
  split' : vmas' = before ++ { area with size := stop - area.start } :: after

section Resized

variable {stop : Nat} {vmas vmas' before after : List VmArea} {area : VmArea}

variable (hmove : HeapResized stop vmas vmas' before area after)
include hmove

theorem HeapResized.heapAreas (h : HeapAreas stop vmas) (hstop : stop % pageSize = 0)
    (hwindow : stop ≤ 0xC0000000) : HeapAreas stop vmas' := by
  have hmem : area ∈ vmas := by simp [hmove.split]
  have hend := h.heap area hmem hmove.name
  have hold : ∀ a ∈ vmas', a = { area with size := stop - area.start } ∨ a ∈ vmas := by
    intro a ha
    rw [hmove.split'] at ha
    rw [hmove.split]
    simp only [List.mem_append, List.mem_cons] at ha ⊢
    tauto
  refine ⟨fun a ha => ?_, fun a ha hname => ?_⟩
  · rcases hold a ha with rfl | ha
    · exact (h.areas area hmem).resize hstop hend hwindow
    · exact h.areas a ha
  · rcases hold a ha with rfl | ha
    · simp only
      omega
    · exact h.heap a ha hname

theorem HeapResized.records : records vmas' = records vmas := by
  simp only [UserSpace.records, hmove.split, hmove.split', List.flatMap_append, List.flatMap_cons]

theorem HeapResized.covers (h : HeapAreas stop vmas) {a : VmArea} (ha : a ∈ vmas)
    (hin : a.start ≤ w ∧ w < a.start + a.size) :
    ∃ a' ∈ vmas', a'.start ≤ w ∧ w < a'.start + a'.size := by
  have hend := h.heap area (by simp [hmove.split]) hmove.name
  rw [hmove.split] at ha
  rw [hmove.split']
  rcases List.mem_append.mp ha with ha | ha
  · exact ⟨a, List.mem_append_left _ ha, hin⟩
  · rcases List.mem_cons.mp ha with rfl | ha
    · refine ⟨_, List.mem_append_right _ (.head _), ?_⟩
      simp only
      omega
    · exact ⟨a, List.mem_append_right _ (.tail _ ha), hin⟩

end Resized

/-- The area that the first growing `brk` makes. -/
def heapArea (stop : Nat) : VmArea :=
  VmArea.new defaultUserHeapStart (stop - defaultUserHeapStart) (protRead ||| protWrite)
    (mapPrivate ||| mapAnonymous) false .heap

theorem expandHeap_cases (hbounds : HeapBounds space)
    (h : HeapAreas (alignUpPage space.heapEnd) space.vmas) (hgt : space.heapEnd < newBrk)
    (hle : newBrk ≤ mmapBaseStart) :
    space.expandHeap newBrk = space ∨
      (space.expandHeap newBrk).heapEnd = newBrk ∧
        ((∃ before area after, HeapResized (alignUpPage newBrk) space.vmas
            (space.expandHeap newBrk).vmas before area after ∧
          ∀ a ∈ before ++ after,
            (interval a).Disjoint ⟨area.start, alignUpPage newBrk - area.start⟩) ∨
        ((space.expandHeap newBrk).vmas = space.vmas ++ [heapArea (alignUpPage newBrk)] ∧
          ∀ a ∈ space.vmas, (interval a).Disjoint
            ⟨defaultUserHeapStart, alignUpPage newBrk - defaultUserHeapStart⟩)) := by
  have hlow := hbounds.low
  have hmono : alignUpPage space.heapEnd ≤ alignUpPage newBrk ∧
      defaultUserHeapStart < alignUpPage newBrk ∧ alignUpPage newBrk ≤ mmapBaseStart := by
    grind
  have hbase : mmapBaseStart = 0x60000000 := rfl
  have hok : ∀ a ∈ space.vmas, AreaOk a := fun a ha => (h.areas a ha).ok
  have heffect := expandHeap_effect space newBrk
  generalize space.expandHeap newBrk = space' at heffect ⊢
  cases heffect with
  | refused => exact .inl rfl
  | @extended before after area hsplit hname hfree =>
    have hend := h.heap area (by simp [hsplit]) hname
    have hsize : sub64 (alignUpPage newBrk) area.start = alignUpPage newBrk - area.start :=
      sub64_eq (by omega) (by omega)
    rw [hsize] at hfree ⊢
    refine .inr ⟨rfl, .inl ⟨before, area, after, ⟨hsplit, hname, rfl⟩, fun a ha => ?_⟩⟩
    have hold : a ∈ space.vmas := by
      rw [hsplit]
      simp only [List.mem_append, List.mem_cons] at ha ⊢
      exact ha.imp_right .inr
    have hlow : area.start + (alignUpPage newBrk - area.start) ≤ 2 ^ 48 := by omega
    exact (overlaps_eq_false_iff (hok a hold) hlow).mp (hfree a ha)
  | created hfree =>
    have hlow : defaultUserHeapStart + (alignUpPage newBrk - defaultUserHeapStart) ≤ 2 ^ 48 := by
      omega
    have hsize : sub64 (alignUpPage newBrk) space.heapStart =
        alignUpPage newBrk - defaultUserHeapStart := by
      rw [hbounds.start]
      exact sub64_eq (by omega) (by omega)
    rw [hsize, hbounds.start] at hfree
    rw [hsize]
    exact .inr ⟨rfl, .inr ⟨by simp only [hbounds.start]; rfl, fun a ha =>
      (overlaps_eq_false_iff (hok a ha) hlow).mp (hfree a ha)⟩⟩

theorem resizeHeap_cases (h : HeapAreas stop vmas) (hlow : stop < 2 ^ 64) :
    resizeHeap stop vmas = vmas ∨
      ∃ before area after, HeapResized stop vmas (resizeHeap stop vmas) before area after := by
  induction vmas with
  | nil => exact .inl rfl
  | cons area rest ih =>
    have hrest : HeapAreas stop rest :=
      ⟨fun a ha => h.areas a (.tail _ ha), fun a ha => h.heap a (.tail _ ha)⟩
    simp only [resizeHeap]
    split
    · rename_i hname
      have hend := h.heap area List.mem_cons_self hname
      rw [sub64_eq (by omega) hlow]
      exact .inr ⟨[], area, rest, rfl, hname, rfl⟩
    · rcases ih hrest with heq | ⟨before, area', after, hsplit, hname, hsplit'⟩
      · rw [heq]
        exact .inl rfl
      · exact .inr ⟨area :: before, area', after, by rw [hsplit]; rfl, hname, by rw [hsplit']; rfl⟩

end Heap

section Placed

structure PlacedSpace (kern : KernelTables) (s : SpaceState) : Prop where
  owns : ∃ tree, OwnsPages s.pages kern s.space.pml4 tree
  bounds : HeapBounds s.space
  areas : HeapAreas (alignUpPage s.space.heapEnd) s.space.vmas
  covered : ∀ w, kern.Private w → w < 2 ^ 48 → (pte s.mem s.space.pml4 w).isSome →
    ∃ area ∈ s.space.vmas, area.start ≤ w ∧ w < area.start + area.size

variable {kern : KernelTables} {s : SpaceState}

/-- What `munmap` leaves of the areas. -/
structure Unmapped (kern : KernelTables) (s s' : SpaceState) (lo hi : Nat) : Prop where
  low : lo ≤ hi ∧ hi ≤ 2 ^ 48
  aligned : lo % pageSize = 0 ∧ hi % pageSize = 0
  vmas : s'.space.vmas = cutAll lo hi s.space.vmas
  same : SameSpace s.space s'.space
  owns : ∃ tree, OwnsPages s'.pages kern s.space.pml4 tree
  pages : ∀ w, kern.Private w → w < 2 ^ 48 → pte s'.mem s.space.pml4 w =
    if lo ≤ w ∧ w < hi then none else pte s.mem s.space.pml4 w

variable (h : PlacedSpace kern s)
include h

theorem munmap_unmapped (hlength : length ≠ 0)
    (haligned : addr % pageSize = 0) (hwindow : InWindow addr length) :
    Unmapped kern s (s.munmap addr length).2 addr (addr + alignUpPage length) := by
  obtain ⟨tree, howns⟩ := h.owns
  have hlow : addr + alignUpPage length ≤ 2 ^ 48 := by
    grind
  have hhi : (addr + alignUpPage length) % pageSize = 0 := by
    grind
  have hfits : OpFits kern True s (.munmap addr length) := opFits_of_inWindow fun _ => hwindow
  obtain ⟨tree', removed, hshrunk⟩ := munmap_shrunk howns addr length hfits
  exact ⟨⟨Nat.le_add_right _ _, hlow⟩, ⟨haligned, hhi⟩,
    munmap_vmas s (Nat.pos_of_ne_zero hlength) haligned hlow,
    munmap_sameSpace s addr length, ⟨tree', hshrunk.owns⟩,
    fun w => munmap_pages howns haligned (Nat.pos_of_ne_zero hlength) hwindow⟩

theorem munmap_cases (hwindow : length ≠ 0 → InWindow addr length) :
    (s.munmap addr length).2 = s ∨
      Unmapped kern s (s.munmap addr length).2 addr (addr + alignUpPage length) := by
  by_cases hrefused : length = 0 ∨ addr % pageSize ≠ 0
  · exact .inl (munmap_refused hrefused)
  · rw [not_or, not_not] at hrefused
    exact .inr (munmap_unmapped h hrefused.1 hrefused.2 (hwindow hrefused.1))

omit h in
theorem Unmapped.piece (hcut : Unmapped kern s s' lo hi) (h : PlacedSpace kern s)
    (hp : p ∈ s'.space.vmas) :
    ∃ area ∈ s.space.vmas, p ∈ VmArea.cut lo hi (hi - lo) area ∧ AreaPages p ∧
      Pieces area lo hi (VmArea.cut lo hi (hi - lo) area) := by
  rw [hcut.vmas] at hp
  obtain ⟨area, harea, hmem⟩ := List.mem_flatMap.mp hp
  have hpages := h.areas.areas area harea
  exact ⟨area, harea, hmem, cut_areaPages hpages hcut.low.1 hcut.low.2 hcut.aligned.1
    hcut.aligned.2 hmem, cut_pieces hpages.ok hcut.low.1 hcut.low.2 hcut.aligned.1 hcut.aligned.2⟩

omit h in
theorem Unmapped.placed (hcut : Unmapped kern s s' lo hi) (h : PlacedSpace kern s) :
    PlacedSpace kern s' := by
  obtain ⟨tree, howns⟩ := hcut.owns
  refine ⟨⟨tree, hcut.same.pml4.symm ▸ howns⟩, hcut.same.heapBounds h.bounds, ⟨?_, ?_⟩, ?_⟩
  · intro p hp
    obtain ⟨-, -, -, hpages, -⟩ := hcut.piece h hp
    exact hpages
  · intro p hp hname
    obtain ⟨area, harea, hmem, -, hpieces⟩ := hcut.piece h hp
    rw [hcut.same.heapEnd]
    exact Nat.le_trans (hpieces.inside p hmem).2
      (h.areas.heap area harea ((hpieces.name p hmem).symm.trans hname))
  · intro w hw hlow hpresent
    rw [hcut.same.pml4, hcut.pages w hw hlow] at hpresent
    split at hpresent
    · cases hpresent
    · rename_i hout
      obtain ⟨area, harea, hin⟩ := h.covered w hw hlow hpresent
      have hpieces := cut_pieces (h.areas.areas area harea).ok hcut.low.1 hcut.low.2
        hcut.aligned.1 hcut.aligned.2
      have hcover : Covers ((VmArea.cut lo hi (hi - lo) area).map interval) w := by
        refine (hpieces.covers w).mpr ⟨hin, fun hhas => hout ?_⟩
        grind
      obtain ⟨i, hi', hhas⟩ := hcover
      obtain ⟨p, hp, rfl⟩ := List.mem_map.mp hi'
      refine ⟨p, ?_, hhas⟩
      rw [hcut.vmas]
      exact List.mem_flatMap.mpr ⟨area, harea, hp⟩

theorem munmap_placed (hwindow : length ≠ 0 → InWindow addr length) :
    PlacedSpace kern (s.munmap addr length).2 := by
  rcases munmap_cases h hwindow with heq | hcut
  · rw [heq]
    exact h
  · exact hcut.placed h

theorem PlacedSpace.absent (hwindow : InWindow vaddr len)
    (hfree : ∀ a ∈ s.space.vmas, (interval a).Disjoint ⟨vaddr, len⟩) (hlo : vaddr ≤ w)
    (hhi : w < vaddr + len) : pte s.mem s.space.pml4 w = none := by
  by_contra hsome
  obtain ⟨area, harea, hin⟩ := h.covered w (private_of_inWindow hwindow hlo hhi)
    (by grind) (Option.ne_none_iff_isSome.mp hsome)
  exact (hfree area harea).not_has hin ⟨hlo, hhi⟩

omit h in
/-- `mmap` has added an area for a free range, and mapped its pages if it was asked to. -/
structure AreaAdded (kern : KernelTables) (s s' : SpaceState) (length : Nat)
    (prot flags : BitVec 32) (vaddr : Nat) (area : VmArea) : Prop where
  vmas : s'.space.vmas = s.space.vmas ++ [area]
  shape : area = { VmArea.new vaddr (alignUpPage length) prot flags false .mmap with
    populatedPages := area.populatedPages }
  aligned : vaddr % pageSize = 0 ∧ alignUpPage length % pageSize = 0
  pos : 0 < alignUpPage length
  window : InWindow vaddr (alignUpPage length)
  free : ∀ a ∈ s.space.vmas, (interval a).Disjoint ⟨vaddr, alignUpPage length⟩
  pages : flags &&& mapPopulate = 0 ∧ area.populatedPages = [] ∧ s'.mem = s.mem ∨
    flags &&& mapPopulate ≠ 0 ∧ Populated kern s.mem s'.mem s.space.pml4 vaddr
      (alignUpPage length) (prot &&& protWrite != 0) area.populatedPages

theorem mmap_cases (prot flags : BitVec 32) (hwindow : length ≠ 0 → ∀ vaddr space,
      s.space.chooseRange addrHint (alignUpPage length) flags = .ok (vaddr, space) →
        InWindow vaddr length) :
    let s' := (s.mmap addrHint length prot flags).2
    (s'.space.vmas = s.space.vmas ∧ ∀ w, kern.Private w → w < 2 ^ 48 →
      pte s'.mem s.space.pml4 w = pte s.mem s.space.pml4 w) ∨
    ∃ vaddr area, (s.mmap addrHint length prot flags).1 = .ok vaddr ∧
      AreaAdded kern s s' length prot flags vaddr area := by
  simp only [SpaceState.mmap]
  split
  · exact .inl ⟨rfl, fun _ _ _ => rfl⟩
  rename_i hlength
  split
  · exact .inl ⟨rfl, fun _ _ _ => rfl⟩
  rename_i vaddr space hchoose
  obtain ⟨tree, howns⟩ := h.owns
  obtain ⟨haligned, hmeets⟩ := chooseRange_free hchoose
  obtain ⟨hrange, hwhole, hle⟩ :=
    alignUpPage_inWindow haligned (hwindow hlength vaddr space hchoose)
  have hspace := chooseRange_same hchoose
  generalize space.mmapBumpPtr = bump at hspace
  subst hspace
  have hlow : vaddr + alignUpPage length ≤ 2 ^ 48 := by
    grind
  have hfree : ∀ a ∈ s.space.vmas, (interval a).Disjoint ⟨vaddr, alignUpPage length⟩ := fun a ha =>
    (overlaps_eq_false_iff (h.areas.areas a ha).ok hlow).mp (hmeets a ha)
  split
  · rename_i hpopulate
    have hcount : 0 + alignUpPage length / pageSize * pageSize = alignUpPage length := by
      grind
    have hspace := populate_space vaddr (prot &&& protWrite != 0) (alignUpPage length / pageSize) 0
      (VmArea.new vaddr (alignUpPage length) prot flags false .mmap)
      { s with space := { s.space with mmapBumpPtr := bump } }
    obtain ⟨hfailed, hdone⟩ := populate_pages
      (s := { s with space := { s.space with mmapBumpPtr := bump } }) (prot &&& protWrite != 0)
      haligned hrange (VmArea.new vaddr (alignUpPage length) prot flags false .mmap) howns
      (Nat.zero_mod pageSize) hcount (fun w => h.absent hrange hfree)
      (Populated.nil kern s.mem s.space.pml4 vaddr _)
    split
    · rename_i after hpop
      rw [hpop] at hspace hfailed
      obtain ⟨frames, ⟨_, hsome, _⟩ | ⟨_, k, hk, hspace⟩⟩ := hspace
      · cases hsome
      · refine .inl ⟨?_, hfailed rfl⟩
        rw [Nat.zero_add] at hspace hcount
        rw [hspace]
        exact unmapAreas_of_disjoint (fun a ha => (h.areas.areas a ha).ok) haligned
          (Nat.mul_mod_left _ _) (hcount ▸ Nat.mul_le_mul_right _ hk.le) hlow hfree
    · rename_i area after hpop
      rw [hpop] at hspace hdone
      obtain ⟨frames, ⟨area', hsome, harea, hspace⟩ | ⟨hnone, _⟩⟩ := hspace
      · cases hsome
        have hvmas := congrArg (fun space : AddressSpace => space.vmas ++ [area]) hspace
        exact .inr ⟨vaddr, area, rfl, hvmas, harea,
          ⟨haligned, hwhole⟩, by omega, hrange, hfree, .inr ⟨hpopulate, hdone area rfl⟩⟩
      · cases hnone
  · rename_i hlazy
    exact .inr ⟨vaddr, _, rfl, rfl, rfl, ⟨haligned, hwhole⟩, by omega, hrange, hfree,
      .inl ⟨not_not.mp hlazy, rfl, rfl⟩⟩

omit h in
theorem AreaAdded.areaPages (h : AreaAdded kern s s' length prot flags vaddr area) :
    AreaPages area := by
  have hlow : vaddr + alignUpPage length ≤ 2 ^ 48 := by
    have hwindow := h.window
    grind
  rw [h.shape]
  refine ⟨⟨h.aligned.1, h.pos, h.aligned.2, .inl hlow⟩, h.window, fun entry hentry => ?_⟩
  rcases h.pages with ⟨-, hnil, -⟩ | ⟨-, hpopulated⟩
  · rw [show area.populatedPages = [] from hnil] at hentry
    cases hentry
  · exact ((hpopulated.keys entry.1).mp (List.mem_map.mpr ⟨entry, hentry, rfl⟩)).2

omit h in
theorem AreaAdded.others (h : AreaAdded kern s s' length prot flags vaddr area)
    (hw : kern.Private w) (hlow : w < 2 ^ 48)
    (hout : ¬ (vaddr ≤ w ∧ w < vaddr + alignUpPage length)) :
    pte s'.mem s.space.pml4 w = pte s.mem s.space.pml4 w := by
  rcases h.pages with ⟨-, -, hmem⟩ | ⟨-, hpopulated⟩
  · rw [hmem]
  · exact hpopulated.others w hw hlow hout

theorem mmap_placed (prot flags : BitVec 32) (hwindow : length ≠ 0 → ∀ vaddr space,
      s.space.chooseRange addrHint (alignUpPage length) flags = .ok (vaddr, space) →
        InWindow vaddr length) : PlacedSpace kern (s.mmap addrHint length prot flags).2 := by
  obtain ⟨tree, howns⟩ := h.owns
  have hsame := mmap_sameSpace s addrHint length prot flags
  have hfits : OpFits kern True s (.mmap addrHint length prot flags) := by
    refine opFits_of_inWindow fun hlength vaddr space hchoose => ?_
    exact (alignUpPage_inWindow (chooseRange_free hchoose).1
      (hwindow hlength vaddr space hchoose)).1
  obtain ⟨tree', hrun, -⟩ := mmap_run howns addrHint length prot flags hfits
  refine ⟨⟨tree', hsame.pml4.symm ▸ (hrun.confined howns).owns⟩, hsame.heapBounds h.bounds, ?_, ?_⟩
  · rw [hsame.heapEnd]
    rcases mmap_cases h prot flags hwindow with ⟨hvmas, -⟩ | ⟨vaddr, area, -, hadded⟩
    · rw [hvmas]
      exact h.areas
    · rw [hadded.vmas]
      refine h.areas.append hadded.areaPages fun hname => ?_
      rw [hadded.shape] at hname
      cases hname
  · rw [hsame.pml4]
    intro w hw hlow hpresent
    rcases mmap_cases h prot flags hwindow with ⟨hvmas, hkept⟩ | ⟨vaddr, area, -, hadded⟩
    · rw [hkept w hw hlow] at hpresent
      rw [hvmas]
      exact h.covered w hw hlow hpresent
    · rw [hadded.vmas]
      by_cases hin : vaddr ≤ w ∧ w < vaddr + alignUpPage length
      · refine ⟨area, List.mem_append_right _ (List.mem_singleton.mpr rfl), ?_⟩
        rw [hadded.shape]
        exact hin
      · rw [hadded.others hw hlow hin] at hpresent
        obtain ⟨a, ha, hina⟩ := h.covered w hw hlow hpresent
        exact ⟨a, List.mem_append_left _ ha, hina⟩

omit h in
theorem AreaPages.page_mem (h : AreaPages area) (hcontains : area.contains addr = true)
    (hw : w / pageSize = addr / pageSize) : area.start ≤ w ∧ w < area.start + area.size := by
  have hstart := h.ok.aligned
  have hsize := h.ok.pages
  simp only [VmArea.contains, h.endAddr, Bool.and_eq_true, decide_eq_true_eq] at hcontains
  grind

omit h in
theorem alignDownPage_div (addr : Nat) : alignDownPage addr / pageSize = addr / pageSize :=
  Nat.mul_div_cancel _ (by decide)

theorem handleDemandFault_placed (hwindow : InWindow faultAddr 1) (isWrite : Bool) :
    PlacedSpace kern (s.handleDemandFault faultAddr isWrite).2 := by
  obtain ⟨tree, howns⟩ := h.owns
  have hpage : InWindow (alignDownPage faultAddr) 1 := by
    grind
  have hpriv : kern.Private (alignDownPage faultAddr) :=
    private_of_inWindow hpage le_rfl (Nat.lt_succ_self _)
  have hsame := handleDemandFault_sameSpace s faultAddr isWrite
  have hfits : OpFits kern True s (.fault faultAddr isWrite) := opFits_of_inWindow hwindow
  obtain ⟨tree', hrun, -⟩ := handleDemandFault_run howns faultAddr isWrite hfits
  refine ⟨⟨tree', hsame.pml4.symm ▸ (hrun.confined howns).owns⟩, hsame.heapBounds h.bounds, ?_, ?_⟩
  · rw [hsame.heapEnd]
    rcases handleDemandFault_pages howns hpriv isWrite with
      ⟨-, hvmas, -⟩ | ⟨-, idx, area, phys, hres⟩
    · rw [hvmas]
      exact h.areas
    · have hmem : area ∈ s.space.vmas := List.mem_of_getElem? hres.position
      have harea := h.areas.areas area hmem
      rw [hres.vmas]
      refine ⟨forall_mem_set h.areas.areas ⟨⟨harea.ok.aligned, harea.ok.pos, harea.ok.pages,
        harea.ok.placed⟩, harea.window, ?_⟩, forall_mem_set h.areas.heap (h.areas.heap area hmem)⟩
      intro entry hentry
      rcases List.mem_cons.mp hentry with rfl | hentry
      · exact harea.page_mem hres.contains (alignDownPage_div faultAddr)
      · exact harea.own entry (List.mem_filter.mp hentry).1
  · rw [hsame.pml4]
    intro w hw hlow hpresent
    rcases handleDemandFault_pages howns hpriv isWrite with ⟨-, hvmas, hkept⟩ | ⟨-, idx, area, phys,
      hres⟩
    · rw [hkept w hw] at hpresent
      rw [hvmas]
      exact h.covered w hw hlow hpresent
    · have hmem : area ∈ s.space.vmas := List.mem_of_getElem? hres.position
      rw [hres.vmas]
      by_cases hpageEq : w / pageSize = faultAddr / pageSize
      · refine ⟨area.insertPage (alignDownPage faultAddr) phys, ?_,
          (h.areas.areas area hmem).page_mem hres.contains hpageEq⟩
        exact List.mem_set (List.getElem?_eq_some_iff.mp hres.position).1 _
      · rw [hres.page.other hw hlow (by grind)
          (by rw [alignDownPage_div]; exact hpageEq)] at hpresent
        obtain ⟨a, ha, hin⟩ := h.covered w hw hlow hpresent
        obtain ⟨before, after, hsplit, -, hset⟩ := split_at hres.position
        rw [hset]
        rw [hsplit] at ha
        rcases List.mem_append.mp ha with ha | ha
        · exact ⟨a, List.mem_append_left _ ha, hin⟩
        · rcases List.mem_cons.mp ha with rfl | ha
          · exact ⟨_, List.mem_append_right _ (.head _), hin⟩
          · exact ⟨a, List.mem_append_right _ (.tail _ ha), hin⟩

omit h in
theorem heapArea_pages (hstop : stop % pageSize = 0) (hlow : defaultUserHeapStart < stop)
    (hwindow : stop ≤ 0xC0000000) : AreaPages (heapArea stop) := by
  refine ⟨areaOk_new rfl ?_ ?_ ?_, ?_, nofun⟩ <;>
    simp only [InWindow, heapArea, VmArea.new, pageSize, defaultUserHeapStart] at * <;> omega

theorem PlacedSpace.congr (hpages : s'.pages = s.pages)
    (hpml4 : s'.space.pml4 = s.space.pml4) (hbounds : HeapBounds s'.space)
    (hareas : HeapAreas (alignUpPage s'.space.heapEnd) s'.space.vmas)
    (hcovers : ∀ a ∈ s.space.vmas, ∀ w, a.start ≤ w ∧ w < a.start + a.size →
      ∃ a' ∈ s'.space.vmas, a'.start ≤ w ∧ w < a'.start + a'.size) : PlacedSpace kern s' := by
  obtain ⟨tree, howns⟩ := h.owns
  have hmem : s'.mem = s.mem := congrArg PageState.mem hpages
  refine ⟨⟨tree, by rw [hpages, hpml4]; exact howns⟩, hbounds, hareas, ?_⟩
  intro w hw hlow hpresent
  rw [hmem, hpml4] at hpresent
  obtain ⟨a, ha, hin⟩ := h.covered w hw hlow hpresent
  exact hcovers a ha w hin

theorem expandHeap_placed (hgt : s.space.heapEnd < newBrk)
    (hle : newBrk ≤ mmapBaseStart) (hbounds : HeapBounds (s.space.expandHeap newBrk)) :
    PlacedSpace kern { s with space := s.space.expandHeap newBrk } := by
  obtain ⟨hpml4, hframes⟩ := expandHeap_frames s.space newBrk
  have hlow := h.bounds.low
  have hmono : alignUpPage s.space.heapEnd ≤ alignUpPage newBrk ∧
      defaultUserHeapStart < alignUpPage newBrk ∧ alignUpPage newBrk ≤ 0xC0000000 := by
    grind
  have hstop : alignUpPage newBrk % pageSize = 0 := Nat.mul_mod_left _ _
  have hareas : HeapAreas (alignUpPage newBrk) s.space.vmas :=
    ⟨h.areas.areas, fun a ha hname => Nat.le_trans (h.areas.heap a ha hname) hmono.1⟩
  have hpages : SpaceState.pages { s with space := s.space.expandHeap newBrk } = s.pages := by
    simp only [SpaceState.pages, hframes]
  rcases expandHeap_cases h.bounds h.areas hgt hle with heq | ⟨hend, ⟨before, area, after, hmove, -⟩
    | ⟨hvmas, -⟩⟩
  · rw [heq]
    exact h
  · refine h.congr hpages hpml4 hbounds ?_ fun a ha w => hmove.covers hareas ha
    simp only [hend]
    exact hmove.heapAreas hareas hstop hmono.2.2
  · refine h.congr hpages hpml4 hbounds ?_ fun a ha w hin => ⟨a, ?_, hin⟩
    · simp only [hend, hvmas]
      refine hareas.append (heapArea_pages hstop hmono.2.1 hmono.2.2) fun _ => ?_
      simp only [heapArea, VmArea.new]
      omega
    · simp only [hvmas]
      exact List.mem_append_left _ ha

variable (hlow : defaultUserHeapStart ≤ newBrk)
include hlow

theorem shrink_placed (hle : newBrk ≤ s.space.heapEnd) :
    let s' := if alignUpPage newBrk < alignUpPage s.space.heapEnd then
      (s.munmap (alignUpPage newBrk) (alignUpPage s.space.heapEnd - alignUpPage newBrk)).2 else s
    PlacedSpace kern s' ∧ HeapAreas (alignUpPage newBrk) s'.space.vmas ∧
      (s' = s ∨ Unmapped kern s s' (alignUpPage newBrk) (alignUpPage s.space.heapEnd)) := by
  have hhigh := h.bounds.high
  split
  · rename_i hlt
    have hrange : InWindow (alignUpPage newBrk)
        (alignUpPage s.space.heapEnd - alignUpPage newBrk) := by
      simp only [InWindow, alignUpPage, add64, pageSize, defaultUserHeapStart, mmapBaseStart] at *
      omega
    have hwhole : alignUpPage (alignUpPage s.space.heapEnd - alignUpPage newBrk) =
        alignUpPage s.space.heapEnd - alignUpPage newBrk := by
      refine alignUpPage_of_aligned ?_ ?_ <;> grind
    have hsum : alignUpPage newBrk + (alignUpPage s.space.heapEnd - alignUpPage newBrk) =
        alignUpPage s.space.heapEnd := by omega
    have haligned : alignUpPage newBrk % pageSize = 0 := Nat.mul_mod_left _ _
    have hcut := munmap_unmapped h (by omega) haligned hrange
    rw [hwhole, hsum] at hcut
    refine ⟨hcut.placed h, ⟨(hcut.placed h).areas.areas, fun p hp hname => ?_⟩, .inr hcut⟩
    obtain ⟨area, harea, hmem, -, hpieces⟩ := hcut.piece h hp
    have hheap := h.areas.heap area harea ((hpieces.name p hmem).symm.trans hname)
    exact pieces_end_le hpieces hheap hmem
  · rename_i hnot
    refine ⟨h, ⟨h.areas.areas, fun area harea hname => ?_⟩, .inl rfl⟩
    exact Nat.le_trans (h.areas.heap area harea hname) (Nat.not_lt.mp hnot)

theorem shrinkHeap_cases (hle : newBrk ≤ s.space.heapEnd) :
    ∃ cut vmas, PlacedSpace kern cut ∧ HeapAreas (alignUpPage newBrk) cut.space.vmas ∧
      (cut = s ∨ Unmapped kern s cut (alignUpPage newBrk) (alignUpPage s.space.heapEnd)) ∧
      s.shrinkHeap newBrk =
        { cut with space := { cut.space with vmas := vmas, heapEnd := newBrk } } ∧
      (vmas = cut.space.vmas ∨ ∃ before area after,
        HeapResized (alignUpPage newBrk) cut.space.vmas vmas before area after) := by
  obtain ⟨hplaced, hareas, hcut⟩ := shrink_placed h hlow hle
  have hstop : alignUpPage newBrk < 2 ^ 64 := by
    grind
  exact ⟨_, _, hplaced, hareas, hcut, rfl, resizeHeap_cases hareas hstop⟩

theorem shrinkHeap_placed
    (hle : newBrk ≤ s.space.heapEnd) (hbounds : HeapBounds (s.shrinkHeap newBrk).space) :
    PlacedSpace kern (s.shrinkHeap newBrk) := by
  have hhigh := h.bounds.high
  have hwindow : alignUpPage newBrk ≤ 0xC0000000 := by
    grind
  have hstop : alignUpPage newBrk % pageSize = 0 := Nat.mul_mod_left _ _
  obtain ⟨cut, vmas, hplaced, hareas, -, heq, rfl | ⟨before, area, after, hmove⟩⟩ :=
    shrinkHeap_cases h hlow hle
  · rw [heq] at hbounds ⊢
    exact hplaced.congr rfl rfl hbounds hareas fun a ha w hin => ⟨a, ha, hin⟩
  · rw [heq] at hbounds ⊢
    exact hplaced.congr rfl rfl hbounds (hmove.heapAreas hareas hstop hwindow)
      fun a ha w => hmove.covers hareas ha

omit hlow in
theorem brk_placed (newBrk : Nat) : PlacedSpace kern (s.brk newBrk).2 := by
  have hbounds := (brk_bounds s h.bounds newBrk).2
  rcases brk_cases s newBrk with ⟨heq, -⟩ | ⟨⟨hge, hle, -⟩, ⟨hgt, heq⟩ | ⟨hlt, heq⟩⟩
  · rw [heq]
    exact h
  · rw [heq] at hbounds ⊢
    exact expandHeap_placed h hgt hle hbounds
  · rw [heq] at hbounds ⊢
    exact shrinkHeap_placed h (h.bounds.start ▸ hge) hlt.le hbounds

end Placed

def MemoryCall (s : SpaceState) : SpaceOp → Prop
  | .mmap addrHint length _ flags => length ≠ 0 → ∀ vaddr space,
      s.space.chooseRange addrHint (alignUpPage length) flags = .ok (vaddr, space) →
        InWindow vaddr length
  | .munmap addr length => length ≠ 0 → InWindow addr length
  | .brk _ => True
  | .fault faultAddr _ => InWindow faultAddr 1
  | .mapPage _ _ => False
  | .code _ _ => False
  | .stack _ _ => False

theorem placed_perform {kern : KernelTables} {op : SpaceOp} (h : PlacedSpace kern s)
    (hop : MemoryCall s op) : PlacedSpace kern (s.perform op) := by
  cases op with
  | mmap addrHint length prot flags => exact mmap_placed h prot flags hop
  | munmap addr length => exact munmap_placed h hop
  | brk newBrk => exact brk_placed h newBrk
  | fault faultAddr isWrite => exact handleDemandFault_placed h hop isWrite
  | mapPage _ _ => exact hop.elim
  | code _ _ => exact hop.elim
  | stack _ _ => exact hop.elim

section Fresh

variable {kern : KernelTables} {kernelCr3 : Nat} {mem mem' : Mem} {pmm pmm' : Pmm}
  {space : AddressSpace}

theorem Created.pte_none (h : Created mem pmm kern kernelCr3 space mem' pmm' tree)
    (hpriv : kern.Private virt) : pte mem' space.pml4 virt = none := by
  cases hpte : pte mem' space.pml4 virt with
  | none => rfl
  | some entry =>
    have hnode := node_of_pte h.owns hpriv hpte
    have htable : ∀ d ≤ 4, ∃ t, tree.node ((path virt).take d) = some t := by
      intro d hd
      refine Option.isSome_iff_exists.mp (closed_take tree virt hd ?_)
      rw [List.take_of_length_le (by simp [path]), hnode]
      rfl
    obtain ⟨t₀, ht₀⟩ := htable 0 (by omega)
    obtain ⟨t₁, ht₁⟩ := htable 1 (by omega)
    obtain ⟨t₂, ht₂⟩ := htable 2 (by omega)
    have hdistinct : ∀ {d d' t t'}, d ≤ 4 → d' ≤ 4 → d ≠ d' →
        tree.node ((path virt).take d) = some t → tree.node ((path virt).take d') = some t' →
        t ≠ t' := by
      rintro d d' t t' hd hd' hne ht ht' rfl
      have hlength := congrArg List.length (tree.unique _ _ t ht ht')
      rw [length_take_path hd, length_take_path hd'] at hlength
      exact hne hlength
    have hnodup : [t₀, t₁, t₂].Nodup := by
      simp only [List.nodup_cons, List.mem_cons, List.not_mem_nil, or_false, not_or,
        List.nodup_nil, and_true, not_false_eq_true]
      exact ⟨⟨hdistinct (by omega) (by omega) (by omega) ht₀ ht₁,
        hdistinct (by omega) (by omega) (by omega) ht₀ ht₂⟩,
        hdistinct (by omega) (by omega) (by omega) ht₁ ht₂⟩
    have hsubset : [t₀, t₁, t₂] ⊆ space.allocatedFrames := by
      intro t ht
      simp only [List.mem_cons, List.not_mem_nil, or_false] at ht
      rw [← h.has]
      rcases ht with rfl | rfl | rfl
      · exact ⟨_, ht₀⟩
      · exact ⟨_, ht₁⟩
      · exact ⟨_, ht₂⟩
    have hlength := (List.subperm_of_subset hnodup hsubset).length_le
    rw [h.count] at hlength
    exact absurd hlength (Nat.not_succ_le_self 2)

theorem placed_new (hroot : KernelRoot mem pmm kern kernelCr3)
    (hnew : AddressSpace.new kernelCr3 mem pmm = (some space, mem', pmm')) :
    PlacedSpace kern ⟨mem', pmm', space⟩ ∧ ∀ w, kern.Private w → pte mem' space.pml4 w = none := by
  obtain ⟨-, hempty⟩ := new_areas hnew
  rcases new_cases hroot with ⟨_, _, _, heq, -⟩ | ⟨space', mem₁, pmm₁, tree, heq, hcreated⟩
  · rw [heq] at hnew
    cases hnew
  · rw [heq] at hnew
    cases hnew
    refine ⟨⟨⟨tree, hcreated.owns⟩, hcreated.heap, ?_, ?_⟩, fun w => hcreated.pte_none⟩
    · simp only [hempty]
      exact ⟨nofun, nofun⟩
    · intro w hw _ hpresent
      simp only [hcreated.pte_none hw] at hpresent
      cases hpresent

end Fresh

end AuraOS.UserSpace
