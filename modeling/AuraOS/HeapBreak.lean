import AuraOS.AddressReuse
import AuraOS.SpacePages

namespace AuraOS.UserSpace

open GuardedRuns PageTables PhysicalFrames VirtualAreas

variable {area : VmArea} {lo hi n stop stop' len vaddr : Nat} {vmas : List VmArea}
  {s s₀ : SpaceState} {space : AddressSpace} {kern : KernelTables} {tree : TableTree}
  {ops : List SpaceOp}

def OffHeap (area : VmArea) : Prop :=
  area.name ≠ .heap ∧
    area.overlaps defaultUserHeapStart (mmapBaseStart - defaultUserHeapStart) = false

theorem offHeap_iff :
    OffHeap area ↔ area.name ≠ .heap ∧
      (mmapBaseStart ≤ area.start ∨ area.endAddr ≤ defaultUserHeapStart) := by
  rw [OffHeap, VmArea.overlaps, Bool.not_eq_false', Bool.or_eq_true, decide_eq_true_eq,
    decide_eq_true_eq]
  rfl

theorem OffHeap.overlaps (h : OffHeap area) (hlo : defaultUserHeapStart ≤ lo) (hle : lo ≤ hi)
    (hhi : hi ≤ mmapBaseStart) : area.overlaps lo (hi - lo) = false := by
  have hsum : add64 lo (hi - lo) = hi := by
    grind
  have hout := (offHeap_iff.mp h).2
  rw [VmArea.overlaps, Bool.not_eq_false', Bool.or_eq_true, decide_eq_true_eq, decide_eq_true_eq,
    hsum]
  omega

/-- The pages from the start of the heap to an address are one area, which is missing if
there are none. -/
inductive HeapAt (stop : Nat) : List VmArea → Prop
  | none {vmas : List VmArea} (hstop : stop = defaultUserHeapStart)
      (hothers : ∀ area ∈ vmas, OffHeap area) : HeapAt stop vmas
  | one {before after : List VmArea} {area : VmArea} (hstop : defaultUserHeapStart < stop)
      (hname : area.name = .heap) (hstart : area.start = defaultUserHeapStart)
      (hsize : area.size = stop - defaultUserHeapStart)
      (hbefore : ∀ area ∈ before, OffHeap area) (hafter : ∀ area ∈ after, OffHeap area) :
      HeapAt stop (before ++ area :: after)

section Lists

variable {stop : Nat} {vmas vmas' before after : List VmArea} {area : VmArea}

theorem HeapAt.flatMap {f : VmArea → List VmArea} (h : HeapAt stop vmas)
    (hothers : ∀ area ∈ vmas, OffHeap area → ∀ part ∈ f area, OffHeap part)
    (hheap : ∀ area ∈ vmas, area.name = .heap → area.start = defaultUserHeapStart →
      area.size = stop - defaultUserHeapStart → f area = [area]) :
    HeapAt stop (vmas.flatMap f) := by
  have hall : ∀ areas : List VmArea, (∀ area ∈ areas, area ∈ vmas ∧ OffHeap area) →
      ∀ part ∈ areas.flatMap f, OffHeap part := by
    intro areas hareas part hpart
    obtain ⟨area, harea, hpart⟩ := List.mem_flatMap.mp hpart
    exact hothers area (hareas area harea).1 (hareas area harea).2 part hpart
  cases h with
  | none hstop hoff => exact .none hstop (hall vmas fun area harea => ⟨harea, hoff area harea⟩)
  | @one before after area hstop hname hstart hsize hbefore hafter =>
    rw [List.flatMap_append, List.flatMap_cons, hheap area (by simp) hname hstart hsize]
    apply HeapAt.one hstop hname hstart hsize
    · exact hall before fun a ha => ⟨by simp [ha], hbefore a ha⟩
    · exact hall after fun a ha => ⟨by simp [ha], hafter a ha⟩

theorem OffHeap.insertPage (h : OffHeap area) (page phys : Nat) :
    OffHeap (area.insertPage page phys) := h

theorem HeapAt.set_insertPage (h : HeapAt stop vmas) {idx : Nat} (hidx : vmas[idx]? = some area)
    (page phys : Nat) : HeapAt stop (vmas.set idx (area.insertPage page phys)) := by
  have hset : ∀ (areas : List VmArea) (k : Nat), (∀ a ∈ areas, OffHeap a) →
      areas[k]? = some area → ∀ a ∈ areas.set k (area.insertPage page phys), OffHeap a := by
    intro areas k hareas hk
    exact forall_mem_set hareas ((hareas area (List.mem_of_getElem? hk)).insertPage page phys)
  cases h with
  | none hstop hoff => exact .none hstop (hset vmas idx hoff hidx)
  | @one before after heap hstop hname hstart hsize hbefore hafter =>
    rw [List.set_append]
    split
    · rename_i hlt
      rw [List.getElem?_append_left hlt] at hidx
      exact .one hstop hname hstart hsize (hset before idx hbefore hidx) hafter
    · rename_i hge
      rw [List.getElem?_append_right (Nat.not_lt.mp hge)] at hidx
      -- the area is the heap itself, or it stands behind it
      cases hk : idx - before.length with
      | zero =>
        rw [hk, List.getElem?_cons_zero, Option.some.injEq] at hidx
        subst hidx
        exact .one hstop hname hstart hsize hbefore hafter
      | succ k =>
        rw [hk, List.getElem?_cons_succ] at hidx
        exact .one hstop hname hstart hsize hbefore (hset after k hafter hidx)

theorem HeapAt.append (h : HeapAt stop vmas) (harea : OffHeap area) :
    HeapAt stop (vmas ++ [area]) := by
  have hadd : ∀ areas : List VmArea, (∀ a ∈ areas, OffHeap a) →
      ∀ a ∈ areas ++ [area], OffHeap a := by
    intro areas hareas a ha
    rcases List.mem_append.mp ha with ha | ha
    · exact hareas a ha
    · exact List.mem_singleton.mp ha ▸ harea
  cases h with
  | none hstop hoff => exact .none hstop (hadd vmas hoff)
  | @one before after heap hstop hname hstart hsize hbefore hafter =>
    rw [List.append_assoc, List.cons_append]
    exact .one hstop hname hstart hsize hbefore (hadd after hafter)

theorem findIdx_heap (hbefore : ∀ a ∈ before, OffHeap a) (hname : area.name = .heap) :
    (before ++ area :: after).findIdx? (·.name == .heap) = some before.length := by
  induction before with
  | nil => simp [List.findIdx?_cons, hname]
  | cons head rest ih =>
    have hhead := (hbefore head (.head _)).1
    rw [List.cons_append, List.findIdx?_cons, beq_eq_false_iff_ne.mpr hhead,
      ih fun a ha => hbefore a (.tail _ ha)]
    rfl

theorem flatMap_cut_offHeap (h : ∀ a ∈ before, OffHeap a) (hlo : defaultUserHeapStart ≤ lo)
    (hle : lo ≤ hi) (hhi : hi ≤ mmapBaseStart) :
    before.flatMap (VmArea.cut lo hi (hi - lo)) = before := by
  apply cutAll_of_disjoint
  intro a ha
  exact (h a ha).overlaps hlo hle hhi

end Lists

structure HeapSpace (space : AddressSpace) : Prop where
  bounds : HeapBounds space
  heap : HeapAt (alignUpPage space.heapEnd) space.vmas
  areas : PageAreas space.vmas

section Breaks

variable {space : AddressSpace}

theorem alignUpPage_break (hhigh : n ≤ mmapBaseStart) :
    n ≤ alignUpPage n ∧ alignUpPage n ≤ mmapBaseStart ∧ alignUpPage n % pageSize = 0 ∧
      alignUpPage n < n + pageSize := by
  grind

theorem alignUpPage_mono {m : Nat} (hle : m ≤ n) (hhigh : n ≤ mmapBaseStart) :
    alignUpPage m ≤ alignUpPage n := by
  grind

theorem sub64_break (hlow : defaultUserHeapStart ≤ n) (hhigh : n ≤ mmapBaseStart) :
    sub64 (alignUpPage n) defaultUserHeapStart = alignUpPage n - defaultUserHeapStart := by
  obtain ⟨hle, htop, -, -⟩ := alignUpPage_break hhigh
  apply sub64_eq
  · omega
  · grind

theorem any_overlaps_break {areas : List VmArea} (hoff : ∀ a ∈ areas, OffHeap a)
    (hlow : defaultUserHeapStart ≤ n) (hhigh : n ≤ mmapBaseStart) :
    areas.any (·.overlaps defaultUserHeapStart (alignUpPage n - defaultUserHeapStart)) = false := by
  obtain ⟨hle, htop, -, -⟩ := alignUpPage_break hhigh
  rw [List.any_eq_false]
  intro a ha
  rw [(hoff a ha).overlaps le_rfl (Nat.le_trans hlow hle) htop]
  exact Bool.false_ne_true

theorem expandHeap_first (hbounds : HeapBounds space) (hoff : ∀ a ∈ space.vmas, OffHeap a)
    (hlow : defaultUserHeapStart ≤ n) (hhigh : n ≤ mmapBaseStart) :
    space.expandHeap n = { space with
      vmas := space.vmas ++ [heapArea (alignUpPage n)]
      heapEnd := n } := by
  have hfind : space.vmas.findIdx? (·.name == .heap) = none := by
    rw [List.findIdx?_eq_none_iff]
    exact fun a ha => beq_eq_false_iff_ne.mpr (hoff a ha).1
  simp only [AddressSpace.expandHeap, hfind, hbounds.start, sub64_break hlow hhigh,
    any_overlaps_break hoff hlow hhigh]
  rfl

theorem expandHeap_again {before after : List VmArea} (hvmas : space.vmas = before ++ area :: after)
    (hname : area.name = .heap) (hstart : area.start = defaultUserHeapStart)
    (hbefore : ∀ a ∈ before, OffHeap a) (hafter : ∀ a ∈ after, OffHeap a)
    (hlow : defaultUserHeapStart ≤ n) (hhigh : n ≤ mmapBaseStart) :
    space.expandHeap n = { space with
      vmas := before ++ { area with size := alignUpPage n - defaultUserHeapStart } :: after
      heapEnd := n } := by
  have hfind : space.vmas.findIdx? (·.name == .heap) = some before.length := by
    rw [hvmas]
    exact findIdx_heap hbefore hname
  have hget : space.vmas[before.length]? = some area := by simp [hvmas]
  have herase : space.vmas.eraseIdx before.length = before ++ after := by
    rw [hvmas, List.eraseIdx_append_of_length_le le_rfl, Nat.sub_self]
    rfl
  have hset : ∀ area', space.vmas.set before.length area' = before ++ area' :: after := by
    intro area'
    rw [hvmas, List.set_append_right _ _ le_rfl, Nat.sub_self]
    rfl
  have hothers : ∀ a ∈ before ++ after, OffHeap a := fun a ha =>
    (List.mem_append.mp ha).elim (hbefore a) (hafter a)
  simp only [AddressSpace.expandHeap, hfind, hget, herase, hset, hstart, sub64_break hlow hhigh,
    any_overlaps_break hothers hlow hhigh]
  rfl

theorem PageAreas.heapMoved (h : PageAreas vmas) {heapStart : Nat}
    (hheap : heapStart % pageSize = 0) (hmoved : HeapMoved (alignUpPage n) heapStart vmas area) :
    area.start % pageSize = 0 ∧ area.size % pageSize = 0 := by
  have hstop : alignUpPage n % pageSize = 0 := Nat.mul_mod_left _ _
  have hstart : area.start % pageSize = 0 := by
    rcases hmoved.start with hfirst | ⟨old, hold, -, hsame⟩
    · rw [hfirst]
      exact hheap
    · rw [← hsame]
      exact (h old hold).1
  refine ⟨hstart, ?_⟩
  rw [hmoved.size]
  grind

theorem PageAreas.expandHeap (h : PageAreas space.vmas) (hbounds : HeapBounds space) (n : Nat) :
    PageAreas (space.expandHeap n).vmas := by
  rcases expandHeap_space space n with hsame | ⟨vmas, hspace, hareas⟩
  · rw [hsame]
    exact h
  · rw [hspace]
    intro area harea
    rcases hareas area harea with hold | hmoved
    · exact h area hold
    · exact h.heapMoved (hbounds.start ▸ by decide) hmoved

theorem PageAreas.resizeHeap (h : PageAreas vmas) (n : Nat) :
    PageAreas (resizeHeap (alignUpPage n) vmas) := by
  intro area harea
  rcases mem_resizeHeap harea with hold | hmoved
  · exact h area hold
  · exact h.heapMoved (Nat.zero_mod _) hmoved

theorem HeapSpace.expandHeap (h : HeapSpace space) (hgt : space.heapEnd < n)
    (hhigh : n ≤ mmapBaseStart) :
    (space.expandHeap n).heapEnd = n ∧ HeapSpace (space.expandHeap n) := by
  obtain ⟨hbounds, hheap, hareas⟩ := h
  have hlow : defaultUserHeapStart ≤ n := Nat.le_of_lt (Nat.lt_of_le_of_lt hbounds.low hgt)
  have hle := (alignUpPage_break hhigh).1
  have hstart : defaultUserHeapStart < alignUpPage n :=
    Nat.lt_of_le_of_lt hbounds.low (Nat.lt_of_lt_of_le hgt hle)
  have hpages := hareas.expandHeap hbounds n
  generalize hvmas : space.vmas = vmas at hheap
  cases hheap with
  | none hstop hoff =>
    rw [expandHeap_first hbounds (hvmas ▸ hoff) hlow hhigh] at hpages ⊢
    refine ⟨rfl, ⟨hbounds.start, hlow, hhigh⟩, ?_, hpages⟩
    rw [hvmas]
    exact .one hstart rfl rfl rfl hoff nofun
  | @one before after area hstop hname hfirst hold hbefore hafter =>
    rw [expandHeap_again hvmas hname hfirst hbefore hafter hlow hhigh] at hpages ⊢
    exact ⟨rfl, ⟨hbounds.start, hlow, hhigh⟩, .one hstart hname hfirst rfl hbefore hafter, hpages⟩

theorem cut_heap (hname : area.name = .heap) (hstart : area.start = defaultUserHeapStart)
    (hsize : area.size = stop - defaultUserHeapStart) (hlow : defaultUserHeapStart ≤ stop')
    (hlt : stop' < stop) (htop : stop ≤ mmapBaseStart) :
    stop' = defaultUserHeapStart ∧ VmArea.cut stop' stop (stop - stop') area = [] ∨
      defaultUserHeapStart < stop' ∧ ∃ part, VmArea.cut stop' stop (stop - stop') area = [part] ∧
        part.name = .heap ∧ part.start = defaultUserHeapStart ∧
        part.size = stop' - defaultUserHeapStart := by
  have hend : area.endAddr = stop := by
    grind
  have hsum : add64 stop' (stop - stop') = stop := by
    grind
  have hover : area.overlaps stop' (stop - stop') = true := by
    rw [VmArea.overlaps, hsum, hend, hstart]
    grind
  obtain ⟨front, back, heq, -⟩ := cut_eq stop hover
  rw [hend, hstart, if_neg (Nat.lt_irrefl stop), List.append_nil] at heq
  rcases Nat.eq_or_lt_of_le hlow with hfirst | hgt
  · rw [if_neg (by omega)] at heq
    exact .inl ⟨hfirst.symm, heq⟩
  · rw [if_pos hgt] at heq
    refine .inr ⟨hgt, _, heq, hname, rfl, sub64_eq hlow ?_⟩
    grind

theorem HeapAt.shrink (h : HeapAt stop vmas) (hlow : defaultUserHeapStart ≤ stop')
    (hle : stop' ≤ stop) (htop : stop ≤ mmapBaseStart) (hpage : stop' % pageSize = 0)
    (hpage' : stop % pageSize = 0) :
    HeapAt stop' (resizeHeap stop' (unmapAreas stop' (stop - stop') vmas)) := by
  have hresize : ∀ before area after, area.name = .heap → area.start = defaultUserHeapStart →
      (∀ a ∈ before, OffHeap a) → (∀ a ∈ after, OffHeap a) → defaultUserHeapStart < stop' →
      HeapAt stop' (resizeHeap stop' (before ++ area :: after)) := by
    intro before area after hname hstart hbefore hafter hgt
    rw [resizeHeap_first (fun a ha => (hbefore a ha).1) hname, hstart, sub64_eq hlow
      (by grind)]
    exact .one hgt hname rfl rfl hbefore hafter
  have hsame : ∀ areas : List VmArea, (∀ a ∈ areas, OffHeap a) → resizeHeap stop' areas = areas :=
    fun areas hoff => resizeHeap_of_not_heap fun a ha => (hoff a ha).1
  cases h with
  | none hstop hoff =>
    rw [unmapAreas, if_pos (.inl (by omega)), hsame vmas hoff]
    exact .none (by omega) hoff
  | @one before after area hstop hname hstart hsize hbefore hafter =>
    rcases Nat.lt_or_ge stop' stop with hlt | hge
    · rw [unmapAreas_pages _ hpage hpage' hlt (htop.trans (by decide)), cutAll,
        List.flatMap_append, List.flatMap_cons, flatMap_cut_offHeap hbefore hlow hle htop,
        flatMap_cut_offHeap hafter hlow hle htop]
      rcases cut_heap hname hstart hsize hlow hlt htop with ⟨heq, hcut⟩ |
        ⟨hgt, part, hcut, hname', hstart', -⟩
      · have hothers : ∀ a ∈ before ++ after, OffHeap a := fun a ha =>
          (List.mem_append.mp ha).elim (hbefore a) (hafter a)
        rw [hcut, List.nil_append, hsame _ hothers]
        exact .none heq hothers
      · rw [hcut]
        exact hresize before part after hname' hstart' hbefore hafter hgt
    · rw [unmapAreas, if_pos (.inl (Nat.sub_eq_zero_of_le hge))]
      exact hresize before area after hname hstart hbefore hafter (by omega)

theorem HeapSpace.shrinkHeap (h : HeapSpace s.space) (hlow : defaultUserHeapStart ≤ n)
    (hle : n ≤ s.space.heapEnd) :
    (s.shrinkHeap n).space.heapEnd = n ∧ HeapSpace (s.shrinkHeap n).space := by
  obtain ⟨hbounds, hheap, hareas⟩ := h
  have hhigh := Nat.le_trans hle hbounds.high
  obtain ⟨hup, -, hpage, -⟩ := alignUpPage_break hhigh
  obtain ⟨-, htop, hpage', -⟩ := alignUpPage_break hbounds.high
  have hends := alignUpPage_mono hle hbounds.high
  obtain ⟨frames, hspace⟩ := shrinkHeap_space s n
  rw [hspace]
  exact ⟨rfl, ⟨hbounds.start, hlow, hhigh⟩,
    hheap.shrink (Nat.le_trans hlow hup) hends htop hpage hpage',
    (hareas.unmapAreas _ _).resizeHeap n⟩

theorem HeapSpace.brk (h : HeapSpace s.space) (n : Nat) :
    HeapSpace (s.brk n).2.space ∧
      (s.brk n).2.space.heapEnd =
        if s.space.heapStart ≤ n ∧ n ≤ mmapBaseStart ∧ n ≠ 0 then n else s.space.heapEnd := by
  have hstart := h.bounds.start
  rcases brk_cases s n with ⟨heq, hrange⟩ | ⟨hrange, ⟨hgt, heq⟩ | ⟨hlt, heq⟩⟩
  · rw [heq]
    refine ⟨h, ?_⟩
    split <;> omega
  · rw [heq, if_pos hrange]
    exact (h.expandHeap hgt hrange.2.1).symm
  · rw [heq, if_pos hrange]
    exact (h.shrinkHeap (by omega) hlt.le).symm

end Breaks

section Mappings

variable {vmas : List VmArea}

theorem searchRange_window (hareas : PageAreas vmas) {rounds candidate found : Nat}
    (hlow : mmapBaseStart ≤ candidate) (hword : candidate < 2 ^ 64)
    (h : searchRange vmas len rounds candidate = some found) :
    mmapBaseStart ≤ found ∧ found < 2 ^ 64 := by
  refine (searchRange_induction (P := fun addr => mmapBaseStart ≤ addr ∧ addr < 2 ^ 64) ?_
    ⟨hlow, hword⟩ h).1
  intro candidate existing hcandidate _ hfind
  have hover : existing.overlaps candidate len = true := by
    simpa using List.find?_some hfind
  have hlt := lt_endAddr_of_overlaps hover
  rw [hareas.endAddr (List.mem_of_find?_eq_some hfind)]
  exact ⟨hcandidate.1.trans hlt.le, Nat.mod_lt _ (by decide)⟩

theorem firstCandidate_window (space : AddressSpace) (addrHint : Option Nat) :
    mmapBaseStart ≤ space.firstCandidate addrHint ∧ space.firstCandidate addrHint < 2 ^ 64 := by
  have hup : ∀ a, alignUpPage a < 2 ^ 64 := by
    intro a
    grind
  refine ⟨Nat.le_max_right _ _, Nat.max_lt.mpr ⟨?_, by decide⟩⟩
  cases hhint : (addrHint.map alignUpPage).filter fun a => mmapBaseStart ≤ a && a < mmapBaseEnd with
  | none => exact hup _
  | some a =>
    obtain ⟨b, -, rfl⟩ := Option.map_eq_some_iff.mp (Option.filter_eq_some_iff.mp hhint).1
    exact hup b

theorem OffHeap.cut (h : OffHeap area) {whole : Nat} (hlow : mmapBaseStart ≤ vaddr)
    (hword : vaddr < 2 ^ 64) (hlen : len < whole) (hwhole : whole < 2 ^ 64)
    (hfree : area.overlaps vaddr whole = false) :
    ∀ part ∈ VmArea.cut vaddr (add64 vaddr len) len area, OffHeap part := by
  obtain ⟨hname, hout⟩ := offHeap_iff.mp h
  intro part hpart
  rcases mem_cut hpart with ⟨rfl, -⟩ | ⟨hover, pages, hparts⟩
  · exact h
  have hstop := lt_endAddr_of_overlaps hover
  rcases hparts with ⟨-, rfl⟩ | ⟨-, rfl⟩
  · have hstart : mmapBaseStart ≤ area.start := by
      simp only [defaultUserHeapStart, mmapBaseStart] at *
      omega
    exact offHeap_iff.mpr ⟨hname, .inl hstart⟩
  · -- if the shorter range wrapped around, the longer one would overlap the area as well
    have hend : mmapBaseStart ≤ add64 vaddr len := by
      simp only [VmArea.overlaps, Bool.not_eq_true', Bool.not_eq_false', Bool.or_eq_false_iff,
        Bool.or_eq_true, decide_eq_false_iff_not, decide_eq_true_eq] at hover hfree
      grind
    exact offHeap_iff.mpr ⟨hname, .inl hend⟩

theorem HeapAt.unmapAreas {k : Nat} (h : HeapAt stop vmas) (htop : stop ≤ mmapBaseStart)
    (hlow : mmapBaseStart ≤ vaddr) (hword : vaddr < 2 ^ 64) (hlen : len < 2 ^ 64)
    (hk : k < len / pageSize) (hfree : ∀ area ∈ vmas, area.overlaps vaddr len = false) :
    HeapAt stop (unmapAreas vaddr (k * pageSize) vmas) := by
  rw [UserSpace.unmapAreas]
  split
  · exact h
  have hlt : k * pageSize < len := by
    grind
  have hround : alignUpPage (k * pageSize) = k * pageSize := by
    grind
  rw [hround]
  apply h.flatMap
  · intro area harea hoff
    exact hoff.cut hlow hword hlt hlen (hfree area harea)
  · intro area _ _ hstart hsize
    have hend : area.endAddr ≤ vaddr := by
      simp only [VmArea.endAddr, add64, hstart, hsize, defaultUserHeapStart, mmapBaseStart] at *
      omega
    have hclear : area.overlaps vaddr (k * pageSize) = false := by
      rw [VmArea.overlaps, decide_eq_true hend, Bool.or_true]
      rfl
    exact cut_of_disjoint hclear

end Mappings

section Calls

variable {s : SpaceState}

theorem HeapSpace.top (h : HeapSpace space) : alignUpPage space.heapEnd ≤ mmapBaseStart :=
  (alignUpPage_break h.bounds.high).2.1

theorem HeapSpace.mmap (h : HeapSpace s.space) (addrHint : Option Nat) (length : Nat)
    (prot : BitVec 32) {flags : BitVec 32} (hflags : flags &&& mapFixed = 0) :
    HeapSpace (s.mmap addrHint length prot flags).2.space := by
  have hsame := mmap_sameSpace s addrHint length prot flags
  have hchosen : ∀ vaddr space', s.space.chooseRange addrHint (alignUpPage length) flags =
      .ok (vaddr, space') → space'.vmas = s.space.vmas ∧ vaddr % pageSize = 0 ∧
        mmapBaseStart ≤ vaddr ∧ vaddr < 2 ^ 64 ∧
        ∀ area ∈ s.space.vmas, area.overlaps vaddr (alignUpPage length) = false := by
    intro vaddr space' hchoose
    obtain ⟨haligned, hfree⟩ := chooseRange_free hchoose
    obtain ⟨hsearch, rfl⟩ := chooseRange_search hflags hchoose
    obtain ⟨hlow, hword⟩ := firstCandidate_window s.space addrHint
    obtain ⟨hlow', hword'⟩ := searchRange_window h.areas hlow hword hsearch
    exact ⟨rfl, haligned, hlow', hword', hfree⟩
  have heffect := mmap_effect s addrHint length prot flags
  generalize (s.mmap addrHint length prot flags).1 = result at heffect
  generalize (s.mmap addrHint length prot flags).2.space = space' at heffect hsame ⊢
  have hbounds := hsame.heapBounds h.bounds
  suffices hkept : HeapAt (alignUpPage s.space.heapEnd) space'.vmas ∧ PageAreas space'.vmas from
    ⟨hbounds, hsame.heapEnd ▸ hkept.1, hkept.2⟩
  clear hsame hbounds
  cases heffect with
  | refused => exact ⟨h.heap, h.areas⟩
  | rolledBack _ _ hchoose hk =>
    obtain ⟨hvmas, -, hlow, hword, hfree⟩ := hchosen _ _ hchoose
    have hlen : alignUpPage length < 2 ^ 64 := by
      grind
    simp only [hvmas]
    exact ⟨h.heap.unmapAreas h.top hlow hword hlen hk hfree, h.areas.unmapAreas _ _⟩
  | mapped _ hchoose harea =>
    obtain ⟨hvmas, haligned, hlow, -, -⟩ := hchosen _ _ hchoose
    simp only [hvmas]
    constructor
    · apply h.heap.append
      rw [harea]
      exact offHeap_iff.mpr ⟨nofun, .inl hlow⟩
    · intro area hmem
      rcases List.mem_append.mp hmem with hmem | hmem
      · exact h.areas area hmem
      · rw [List.mem_singleton.mp hmem, harea]
        exact ⟨haligned, Nat.mul_mod_left _ _⟩

theorem HeapSpace.fault (h : HeapSpace s.space) (faultAddr : Nat) (isWrite : Bool) :
    HeapSpace (s.handleDemandFault faultAddr isWrite).2.space := by
  obtain ⟨frames, vmas, hspace, hvmas⟩ := handleDemandFault_space s faultAddr isWrite
  have hbounds := (handleDemandFault_sameSpace s faultAddr isWrite).heapBounds h.bounds
  rw [hspace] at hbounds ⊢
  rcases hvmas with rfl | ⟨idx, area, page, phys, hidx, rfl⟩
  · exact ⟨hbounds, h.heap, h.areas⟩
  · refine ⟨hbounds, h.heap.set_insertPage hidx page phys, ?_⟩
    exact forall_mem_set h.areas (h.areas area (List.mem_of_getElem? hidx))

/-- The call is `brk`, a demand fault, or `mmap` without `MAP_FIXED`. -/
def BreakCall : SpaceOp → Prop
  | .brk _ => True
  | .fault _ _ => True
  | .mmap _ _ _ flags => flags &&& mapFixed = 0
  | _ => False

theorem HeapSpace.perform (h : HeapSpace s.space) {op : SpaceOp} (hop : BreakCall op) :
    HeapSpace (s.perform op).space := by
  cases op with
  | brk n => exact (h.brk n).1
  | fault faultAddr isWrite => exact h.fault faultAddr isWrite
  | mmap addrHint length prot flags => exact h.mmap addrHint length prot hop
  | munmap => exact hop.elim
  | mapPage => exact hop.elim
  | code => exact hop.elim
  | stack => exact hop.elim

end Calls

structure EmptyHeap (space : AddressSpace) : Prop where
  start : space.heapStart = defaultUserHeapStart
  stop : space.heapEnd = space.heapStart
  others : ∀ area ∈ space.vmas, OffHeap area
  areas : PageAreas space.vmas

structure HeapCovered (space : AddressSpace) : Prop where
  one : space.heapStart < alignUpPage space.heapEnd →
    ∃ area, space.vmas.filter (·.name = .heap) = [area] ∧ area.start = space.heapStart ∧
      area.start + area.size = alignUpPage space.heapEnd
  none : alignUpPage space.heapEnd ≤ space.heapStart → space.vmas.filter (·.name = .heap) = []

/-- The break goes to the address asked for, if it is within the bounds of the heap.  A
growing heap changes no page and no frame. -/
structure BreakMoved (s : SpaceState) (n : Nat) : Prop where
  returned : (s.brk n).1 = (s.brk n).2.space.heapEnd
  moved : (s.brk n).2.space.heapEnd =
    if s.space.heapStart ≤ n ∧ n ≤ mmapBaseStart ∧ n ≠ 0 then n else s.space.heapEnd
  covered : HeapCovered (s.brk n).2.space
  grown : s.space.heapEnd ≤ n → (s.brk n).2.mem = s.mem ∧ (s.brk n).2.pmm = s.pmm

structure BreakShrunk (kern : KernelTables) (s : SpaceState) (n : Nat) : Prop where
  pages : ∀ w, kern.Private w → w < 2 ^ 48 → pte (s.brk n).2.mem s.space.pml4 w =
    if alignUpPage n ≤ w ∧ w < alignUpPage s.space.heapEnd then none
    else pte s.mem s.space.pml4 w
  freed : ∀ a, (s.brk n).2.pmm.FreeAt a ↔ s.pmm.FreeAt a ∨ ∃ page, page % pageSize = 0 ∧
    alignUpPage n ≤ page ∧ page < alignUpPage s.space.heapEnd ∧
      pageFrame s.mem s.space.pml4 page = some a

section Runs

theorem EmptyHeap.heapSpace (h : EmptyHeap space) : HeapSpace space := by
  have hstop : space.heapEnd = defaultUserHeapStart := h.stop.trans h.start
  refine ⟨⟨h.start, Nat.le_of_eq hstop.symm, ?_⟩, .none ?_ h.others, h.areas⟩
  · rw [hstop]
    decide
  · rw [hstop]
    decide

theorem filter_offHeap (h : ∀ area ∈ vmas, OffHeap area) : vmas.filter (·.name = .heap) = [] := by
  rw [List.filter_eq_nil_iff]
  intro area harea
  rw [decide_eq_true_eq]
  exact (h area harea).1

theorem HeapSpace.covered (h : HeapSpace space) : HeapCovered space := by
  have hstart := h.bounds.start
  have hheap := h.heap
  generalize hvmas : space.vmas = vmas at hheap
  cases hheap with
  | none hstop hothers =>
    refine ⟨fun hlt => ?_, fun _ => ?_⟩
    · omega
    · rw [hvmas]
      exact filter_offHeap hothers
  | @one before after area hstop hname hfirst hsize hbefore hafter =>
    refine ⟨fun _ => ⟨area, ?_, hfirst.trans hstart.symm, ?_⟩, fun hle => ?_⟩
    · have hpos : decide (area.name = .heap) = true := decide_eq_true hname
      rw [hvmas, List.filter_append, List.filter_cons, if_pos hpos, filter_offHeap hbefore,
        filter_offHeap hafter]
      rfl
    · rw [hfirst, hsize]
      omega
    · omega

variable {s : SpaceState}

theorem brk_grown (s : SpaceState) (h : s.space.heapEnd ≤ n) :
    (s.brk n).2.mem = s.mem ∧ (s.brk n).2.pmm = s.pmm := by
  rcases brk_cases s n with ⟨heq, -⟩ | ⟨-, ⟨-, heq⟩ | ⟨hlt, -⟩⟩
  · rw [heq]
    exact ⟨rfl, rfl⟩
  · rw [heq]
    exact ⟨rfl, rfl⟩
  · omega

theorem HeapSpace.moved (h : HeapSpace s.space) (n : Nat) : BreakMoved s n where
  returned := rfl
  moved := (h.brk n).2
  covered := (h.brk n).1.covered
  grown := brk_grown s

theorem brk_below (hbounds : HeapBounds s.space) (hlow : s.space.heapStart ≤ n)
    (hlt : n < s.space.heapEnd) : (s.brk n).2 = s.shrinkHeap n := by
  have hstart := hbounds.start
  have hhigh := hbounds.high
  have hpos : 0 < defaultUserHeapStart := by decide
  rcases brk_cases s n with ⟨-, hout⟩ | ⟨-, ⟨hgt, -⟩ | ⟨-, heq⟩⟩
  · omega
  · omega
  · exact heq

theorem brk_shrunk (howns : OwnsPages s.pages kern s.space.pml4 tree) (hbounds : HeapBounds s.space)
    (hlow : s.space.heapStart ≤ n) (hle : n ≤ s.space.heapEnd) : BreakShrunk kern s n := by
  have hlow' : defaultUserHeapStart ≤ n := hbounds.start ▸ hlow
  have hhigh := Nat.le_trans hle hbounds.high
  obtain ⟨hup, -, hpage, -⟩ := alignUpPage_break hhigh
  obtain ⟨-, htop, hpage', -⟩ := alignUpPage_break hbounds.high
  have hempty : ∀ w, alignUpPage s.space.heapEnd ≤ alignUpPage n →
      ¬ (alignUpPage n ≤ w ∧ w < alignUpPage s.space.heapEnd) := by
    intro w hnot
    omega
  have hsame : (s.brk n).2.mem = s.mem → (s.brk n).2.pmm = s.pmm →
      alignUpPage s.space.heapEnd ≤ alignUpPage n → BreakShrunk kern s n := by
    intro hmem hpmm hnot
    refine ⟨fun w _ _ => ?_, fun a => ?_⟩
    · rw [hmem, if_neg (hempty w hnot)]
    · rw [hpmm]
      refine (or_iff_left ?_).symm
      rintro ⟨page, -, hlo, hhi, -⟩
      exact hempty page hnot ⟨hlo, hhi⟩
  rcases Nat.eq_or_lt_of_le hle with rfl | hlt
  · obtain ⟨hmem, hpmm⟩ := brk_grown s (Nat.le_refl s.space.heapEnd)
    exact hsame hmem hpmm le_rfl
  have hbrk := brk_below hbounds hlow hlt
  rcases Nat.lt_or_ge (alignUpPage n) (alignUpPage s.space.heapEnd) with hpages | hnone
  · have hwindow : InWindow (alignUpPage n) (alignUpPage s.space.heapEnd - alignUpPage n) := by
      simp only [InWindow, defaultUserHeapStart, mmapBaseStart] at *
      omega
    have hlen : alignUpPage n + alignUpPage (alignUpPage s.space.heapEnd - alignUpPage n) =
        alignUpPage s.space.heapEnd := by
      have hsmall : alignUpPage s.space.heapEnd - alignUpPage n ≤ 2 ^ 63 := by
        grind
      have hwhole : (alignUpPage s.space.heapEnd - alignUpPage n) % pageSize = 0 := by
        grind
      rw [alignUpPage_of_aligned hsmall hwhole]
      omega
    have hmoved : (s.shrinkHeap n).mem = (s.munmap (alignUpPage n)
          (alignUpPage s.space.heapEnd - alignUpPage n)).2.mem ∧
        (s.shrinkHeap n).pmm = (s.munmap (alignUpPage n)
          (alignUpPage s.space.heapEnd - alignUpPage n)).2.pmm := by
      simp only [SpaceState.shrinkHeap, if_pos hpages, and_self]
    refine ⟨fun w hw hword => ?_, fun a => ?_⟩
    · rw [hbrk, hmoved.1, munmap_pages howns hpage (Nat.sub_pos_of_lt hpages) hwindow hw hword,
        hlen]
    · rw [hbrk, hmoved.2, munmap_freed howns hpage (Nat.sub_pos_of_lt hpages) hwindow, hlen]
  · have hkept : (s.shrinkHeap n).mem = s.mem ∧ (s.shrinkHeap n).pmm = s.pmm := by
      simp only [SpaceState.shrinkHeap, if_neg (Nat.not_lt.mpr hnone), and_self]
    exact hsame (hbrk ▸ hkept.1) (hbrk ▸ hkept.2) hnone

theorem heapSpace_run (hempty : EmptyHeap s₀.space) (hops : ∀ op ∈ ops, BreakCall op) :
    HeapSpace (ops.foldl SpaceState.perform s₀).space := by
  have hstep : ∀ (s : SpaceState) (op : SpaceOp), HeapSpace s.space → BreakCall op ∧ True →
      HeapSpace (s.perform op).space := fun s op h hop => h.perform hop.1
  exact invariant_of_guarded hstep hempty.heapSpace
    (guarded_and_of_forall_mem hops (guarded_true _ _ _))

theorem ownsPages_run (hbounds : HeapBounds s₀.space)
    (howns : OwnsPages s₀.pages kern s₀.space.pml4 tree)
    (hfits : Guarded SpaceState.perform (OpFits kern True) s₀ ops) :
    ∃ tree', OwnsPages (ops.foldl SpaceState.perform s₀).pages kern
      (ops.foldl SpaceState.perform s₀).space.pml4 tree' := by
  have hstep : ∀ (s : SpaceState) (op : SpaceOp),
      (HeapBounds s.space ∧ ∃ tree, OwnsPages s.pages kern s.space.pml4 tree) →
      OpFits kern True s op → HeapBounds (s.perform op).space ∧
        ∃ tree, OwnsPages (s.perform op).pages kern (s.perform op).space.pml4 tree := by
    rintro s op ⟨hbounds, tree, howns⟩ hfits
    obtain ⟨⟨tree', hrun⟩, hpml4, hbounds', -⟩ := perform_run howns hbounds op hfits
    have hconfined : Confined s.pages (s.perform op).pages kern s.space.pml4 tree tree' :=
      hrun.confined howns
    exact ⟨hbounds', tree', hpml4.symm ▸ hconfined.owns⟩
  exact (invariant_of_guarded hstep ⟨hbounds, tree, howns⟩ hfits).2

end Runs

/-- From an empty heap, in every state that `brk` calls, faults and `mmap` calls without
`MAP_FIXED` lead to: one area covers the heap, `brk` moves the break within its bounds,
growing the heap changes no pages, and if the page tables are the space's own, which they
stay as long as the calls map private pages, then shrinking it unmaps and frees the pages
behind the break and no others. -/
theorem brk_semantics {s₀ : SpaceState} (hempty : EmptyHeap s₀.space) {ops : List SpaceOp}
    (hops : ∀ op ∈ ops, BreakCall op) (n : Nat) :
    let s := ops.foldl SpaceState.perform s₀
    HeapCovered s.space ∧ BreakMoved s n ∧
      (∀ kern tree, OwnsPages s.pages kern s.space.pml4 tree → s.space.heapStart ≤ n →
        n ≤ s.space.heapEnd → BreakShrunk kern s n) ∧
      ∀ kern tree, OwnsPages s₀.pages kern s₀.space.pml4 tree →
        Guarded SpaceState.perform (OpFits kern True) s₀ ops →
        ∃ tree', OwnsPages s.pages kern s.space.pml4 tree' := by
  intro s
  have hspace : HeapSpace s.space := heapSpace_run hempty hops
  refine ⟨hspace.covered, hspace.moved n, ?_, ?_⟩
  · intro kern tree howns hlow hle
    exact brk_shrunk howns hspace.bounds hlow hle
  · intro kern tree howns hfits
    exact ownsPages_run hempty.heapSpace.bounds howns hfits

/-- Two pages of heap, of which the second is used, and then only one. -/
theorem brk_semantics_shrink :
    ∃ space mem' pmm', AddressSpace.new 0x1000 hardwareTables (fewFrames 8) =
        (some space, mem', pmm') ∧
      let s := [SpaceOp.brk 0x50001800, .fault 0x50001234 true].foldl SpaceState.perform
        ⟨mem', pmm', space⟩
      (pageFrame s.mem s.space.pml4 0x50001000).isSome ∧ (s.brk 0x50000800).1 = 0x50000800 ∧
        BreakShrunk hardwareKernel s 0x50000800 := by
  obtain ⟨space, mem', pmm', hnew, hvmas, hstart, hstop, hstart', hstop', hpresent⟩ :=
    exists_new (n := 8) (P := fun s₀ =>
      let s := [SpaceOp.brk 0x50001800, .fault 0x50001234 true].foldl SpaceState.perform s₀
      s₀.space.vmas = [] ∧ s₀.space.heapStart = 0x50000000 ∧ s₀.space.heapEnd = 0x50000000 ∧
        s.space.heapStart = 0x50000000 ∧ s.space.heapEnd = 0x50001800 ∧
        (pageFrame s.mem s.space.pml4 0x50001000).isSome) (by decide +kernel)
  have hempty : EmptyHeap space := by
    refine ⟨hstart, hstop.trans hstart.symm, ?_, ?_⟩
    · rw [hvmas]
      exact nofun
    · rw [hvmas]
      exact nofun
  have hops : ∀ op ∈ [SpaceOp.brk 0x50001800, .fault 0x50001234 true], BreakCall op := by
    intro op hop
    rcases List.mem_pair.mp hop with rfl | rfl
    · trivial
    · trivial
  obtain ⟨tree, howns⟩ := (placed_new (hardwareKernel_root _) hnew).1.owns
  have hwindow : OpInWindow ((SpaceState.mk mem' pmm' space).perform (.brk 0x50001800))
      (.fault 0x50001234 true) := ⟨by decide, by decide⟩
  have hfits : Guarded SpaceState.perform (OpFits hardwareKernel True) ⟨mem', pmm', space⟩
      [SpaceOp.brk 0x50001800, .fault 0x50001234 true] :=
    ⟨trivial, opFits_of_inWindow hwindow, trivial⟩
  have hempty' : EmptyHeap (SpaceState.mk mem' pmm' space).space := hempty
  obtain ⟨-, hmoved, hshrunk, hkept⟩ := brk_semantics hempty' hops 0x50000800
  obtain ⟨tree', howns'⟩ := hkept hardwareKernel tree howns hfits
  refine ⟨space, mem', pmm', hnew, hpresent, ?_, ?_⟩
  · have hbounds : (0x50000000 : Nat) ≤ 0x50000800 ∧ 0x50000800 ≤ mmapBaseStart ∧
        0x50000800 ≠ 0 := by decide
    rw [hmoved.returned, hmoved.moved, hstart', if_pos hbounds]
  · apply hshrunk hardwareKernel tree' howns'
    · rw [hstart']
      decide
    · rw [hstop']
      decide

end AuraOS.UserSpace
