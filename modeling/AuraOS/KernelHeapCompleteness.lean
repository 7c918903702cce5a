import AuraOS.KernelHeapInvariant

namespace AuraOS.KernelHeap

open IntervalLists GuardedRuns

variable {layout : Layout} {size align p : Nat} {region : HeapRegion} {s : HeapState}

/-- `align_of::<ListNode>()`. -/
def nodeAlign : Nat := 8

attribute [grind =] nodeAlign

def OffByNode (region : Interval) (align : Nat) : Prop :=
  nodeSize ≤ align ∧ align ∣ region.start + nodeAlign

def Granular (i : Interval) : Prop :=
  nodeAlign ∣ i.start ∧ nodeAlign ∣ i.stop

theorem sizeAlign_granular (h : sizeAlign layout = some (size, align)) :
    nodeAlign ∣ size ∧ nodeAlign ∣ align := by
  obtain ⟨aligned, haligned, hpair⟩ := Option.bind_eq_some_iff.mp h
  obtain ⟨rfl, rfl⟩ := hpair
  simp only [Layout.alignTo] at haligned
  split at haligned
  · cases haligned
    have hdvd : nodeAlign ∣ 2 ^ max layout.shift 3 := Nat.pow_dvd_pow 2 (Nat.le_max_right _ 3)
    refine ⟨?_, hdvd⟩
    rcases Nat.le_total nodeSize (Layout.padToAlign ⟨layout.size, max layout.shift 3, _⟩).size
      with hle | hle
    · rw [Nat.max_eq_left hle]
      exact hdvd.trans (Nat.dvd_mul_left _ _)
    · rw [Nat.max_eq_right hle]
      decide
  · cases haligned

theorem sizeAlign_align (h : sizeAlign layout = some (size, align)) :
    align = layout.align ∨ layout.align ≤ nodeAlign ∧ align = nodeAlign := by
  obtain ⟨aligned, haligned, hpair⟩ := Option.bind_eq_some_iff.mp h
  obtain ⟨-, rfl⟩ := hpair
  simp only [Layout.alignTo] at haligned
  split at haligned
  · cases haligned
    simp only [Layout.padToAlign, Layout.align]
    rcases Nat.le_total 3 layout.shift with hle | hle
    · rw [Nat.max_eq_left hle]
      exact .inl rfl
    · rw [Nat.max_eq_right hle]
      exact .inr ⟨Nat.pow_le_pow_right (by decide) hle, rfl⟩
  · cases haligned

section Alignment

variable {addr align : Nat}

theorem alignUp_le (hpos : 0 < align) (haddr : addr + align ≤ 2 ^ 64) (hdvd : align ∣ p)
    (hle : addr ≤ p) : alignUp addr align ≤ p := by
  obtain ⟨k, rfl⟩ := hdvd
  have hmod : (addr + align - 1) % addressSpace = addr + align - 1 := by
    grind
  have hlt : addr + align - 1 < (k + 1) * align := by
    rw [Nat.succ_mul, Nat.mul_comm k]
    omega
  rw [alignUp, hmod, Nat.mul_comm align]
  exact Nat.mul_le_mul_right _ (Nat.lt_succ_iff.mp ((Nat.div_lt_iff_lt_mul hpos).mpr hlt))

theorem add_align_le {q : Nat} (hp : align ∣ p) (hq : align ∣ q) (hlt : q < p) : q + align ≤ p := by
  have hle := Nat.le_of_dvd (by omega) ((Nat.dvd_sub hp hq))
  omega

end Alignment

section Regions

variable {region : Interval} {size align p : Nat}

theorem allocFromRegion_of_fits (hbound : region.stop ≤ 2 ^ 63)
    (h : Fits region size align (alignUp region.start align)) :
    allocFromRegion region size align = some (alignUp region.start align) := by
  have hbefore := h.before
  have hafter := h.after
  have hexcess : (alignUp region.start align + addressSpace - region.start) % addressSpace =
      alignUp region.start align - region.start := by
    grind
  simp only [allocFromRegion, endAddr_eq hbound, hexcess]
  rw [if_neg (by grind), if_neg (by omega), if_neg (by omega),
    if_neg (by omega)]

theorem allocFromRegion_start {allocStart : Nat}
    (h : allocFromRegion region size align = some allocStart) :
    allocStart = alignUp region.start align := by
  simp only [allocFromRegion] at h
  split_ifs at h
  exact (Option.some.inj h).symm

/-- A block that fits somewhere in the region fits at the first aligned address
unless the region starts one granule before it. -/
theorem fits_alignUp (hgran : Granular region) (hbound : region.stop ≤ 2 ^ 63)
    (hnode : nodeAlign ∣ align) (hpos : 0 < align) (halign : align ≤ 2 ^ 63)
    (h : Fits region size align p) (hoff : ¬ OffByNode region align) :
    Fits region size align (alignUp region.start align) := by
  have hroom : region.start + align ≤ 2 ^ 64 := by
    grind
  obtain ⟨hdvd, hle⟩ := alignUp_spec hpos hroom
  have hmin : ∀ r, align ∣ r → region.start ≤ r → alignUp region.start align ≤ r :=
    fun r => alignUp_le hpos hroom
  have hleast := hmin p h.aligned h.start
  have hbefore := h.before
  have hafter := h.after
  generalize alignUp region.start align = q at *
  have hstep : q = p ∨ q + align ≤ p := by
    rcases Nat.lt_or_eq_of_le hleast with hlt | heq
    · exact .inr (add_align_le h.aligned hdvd hlt)
    · exact .inl heq
  have hq : nodeAlign ∣ q := hnode.trans hdvd
  have hsame : align = nodeAlign → q = region.start := by
    rintro rfl
    exact Nat.le_antisymm (hmin region.start hgran.1 le_rfl) hle
  -- the remainder in front is a multiple of the granule, and one granule is excluded
  have hfront : region.start = q ∨ region.start + nodeSize ≤ q := by
    by_contra hbad
    have heq : region.start + nodeAlign = q := by
      have hstart := hgran.1
      simp only [nodeAlign, nodeSize] at *
      omega
    refine hoff ⟨?_, heq ▸ hdvd⟩
    simp only [nodeAlign, nodeSize] at *
    omega
  refine ⟨hdvd, hle, by omega, hfront, ?_⟩
  rcases hstep with rfl | hstep
  · exact hafter
  · have hwide : align = nodeAlign ∨ nodeSize ≤ align := by
      simp only [nodeAlign, nodeSize] at *
      omega
    rcases hwide with halign8 | hwide
    · -- both remainders at `p` add up to the one at the start of the region
      grind
    · omega

theorem allocFromRegion_eq_none_iff (hgran : Granular region) (hbound : region.stop ≤ 2 ^ 63)
    (hnode : nodeAlign ∣ align) (hpos : 0 < align) (halign : align ≤ 2 ^ 63)
    (h : Fits region size align p) :
    allocFromRegion region size align = none ↔ OffByNode region align := by
  constructor
  · intro hnone
    by_contra hoff
    rw [allocFromRegion_of_fits hbound
      (fits_alignUp hgran hbound hnode hpos halign h hoff)] at hnone
    cases hnone
  · rintro ⟨hlarge, hdvd⟩
    cases hfrom : allocFromRegion region size align with
    | none => rfl
    | some allocStart =>
      obtain rfl := allocFromRegion_start hfrom
      have hbefore := (allocFromRegion_spec hpos halign hbound hfrom).before
      have hroom : region.start + align ≤ 2 ^ 64 := by
        grind
      have hle := alignUp_le hpos hroom hdvd (Nat.le_add_right _ _)
      -- the region itself cannot start at a multiple of the alignment
      have hne : region.start ≠ alignUp region.start align := by
        intro heq
        have hspec := (alignUp_spec hpos hroom).1
        rw [← heq] at hspec
        have hstep := add_align_le hdvd hspec (Nat.lt_add_of_pos_right (by decide))
        grind
      grind

theorem exists_fits_iff (hgran : Granular region)
    (hlayout : sizeAlign layout = some (size, align)) :
    (∃ p, Fits region size layout.align p) ↔ ∃ p, Fits region size align p := by
  constructor
  · rintro ⟨p, h⟩
    rcases sizeAlign_align hlayout with rfl | ⟨-, rfl⟩
    · exact ⟨p, h⟩
    · have hstart := h.start
      have hbefore := h.before
      have hafter := h.after
      refine ⟨region.start, hgran.1, le_rfl, by omega, .inl rfl, ?_⟩
      omega
  · rintro ⟨p, h⟩
    have hdvd := (sizeAlign_spec hlayout).2.2.1
    exact ⟨p, hdvd.trans h.aligned, h.start, h.stop, h.before, h.after⟩

theorem offByNode_iff (hlayout : sizeAlign layout = some (size, align)) :
    OffByNode region layout.align ↔ OffByNode region align := by
  rcases sizeAlign_align hlayout with rfl | ⟨hsmall, rfl⟩
  · rfl
  · have hlayoutSmall : ¬ nodeSize ≤ layout.align := Nat.not_le.mpr (hsmall.trans_lt (by decide))
    have hnodeSmall : ¬ nodeSize ≤ nodeAlign := by decide
    simp [OffByNode, hlayoutSmall, hnodeSmall]

end Regions

theorem findRegion_eq_none_iff (free : List Interval) :
    findRegion size align free = none ↔
      ∀ region ∈ free, allocFromRegion region size align = none := by
  induction free with
  | nil => simp [findRegion]
  | cons region rest ih =>
    simp only [findRegion, List.forall_mem_cons]
    split
    · rename_i hfrom
      simp [hfrom]
    · rename_i hfrom
      simp [hfrom, ih]

def HeapState.OnGranules (s : HeapState) : Prop :=
  ∀ b ∈ s.live, nodeAlign ∣ b.ptr ∧ nodeAlign ∣ b.paddedSize

theorem onGranules_apply {s' : HeapState} {request : Request} (hinv : HeapInvariant region s)
    (h : s.OnGranules) (hstep : s.apply request = some s') : s'.OnGranules := by
  cases request with
  | alloc layout =>
    obtain ⟨⟨ptr, free⟩, halloc, heq⟩ := Option.bind_eq_some_iff.mp hstep
    cases heq
    rcases alloc_spec hinv.freeList halloc with ⟨rfl, rfl⟩ | ⟨size, align, hsa, hcarved⟩
    · simpa using h
    · obtain ⟨hsize, halign⟩ := sizeAlign_granular hsa
      have hpadded : (⟨ptr, layout⟩ : Block).paddedSize = size := by simp [Block.paddedSize, hsa]
      intro b hb
      split at hb
      · exact h b hb
      · rcases List.mem_cons.mp hb with rfl | hb
        · exact ⟨halign.trans hcarved.aligned, hpadded ▸ hsize⟩
        · exact h b hb
  | dealloc block =>
    simp only [HeapState.apply] at hstep
    split at hstep
    · obtain ⟨free, -, heq⟩ := Option.bind_eq_some_iff.mp hstep
      cases heq
      exact fun b hb => h b (List.mem_of_mem_erase hb)
    · cases hstep

theorem onGranules_of_run {requests : List Request}
    (hrun : requests.foldlM HeapState.apply (HeapState.boot region) = some s) :
    HeapInvariant region s ∧ s.OnGranules := by
  have hboot : HeapInvariant region (HeapState.boot region) ∧
      (HeapState.boot region).OnGranules := by
    refine ⟨heapInvariant_boot region, ?_⟩
    intro b hb
    cases hb
  have hpreserved : ∀ t request t', HeapInvariant region t ∧ t.OnGranules →
      t.apply request = some t' → HeapInvariant region t' ∧ t'.OnGranules :=
    fun t request t' h hstep => ⟨h.1.apply hstep, onGranules_apply h.1 h.2 hstep⟩
  exact invariant_of_foldlM hpreserved hboot hrun

theorem exists_block_of_not_free {live : List Block} {x : Nat}
    (hheap : Interval.Has ⟨region.start, region.size⟩ x) (h : ¬ FreeAddress region live x) :
    ∃ b ∈ live, b.interval.Has x := by
  by_contra hnone
  push Not at hnone
  exact h ⟨hheap, hnone⟩

theorem granular_of_mem (hinv : HeapInvariant region s) (h : s.OnGranules) {i : Interval}
    (hi : i ∈ s.free) : Granular i := by
  have hmax := (hinv.heapCorrect.maximal i).mp hi
  have hpos := hmax.nonempty
  obtain ⟨⟨hlo, -⟩, hfirst⟩ := hmax.inside i.start ⟨le_rfl, by grind⟩
  obtain ⟨⟨-, hhi⟩, hlast⟩ := hmax.inside (i.stop - 1)
    (by grind)
  have hpage := region.start_aligned
  have hpages := region.size_pages
  refine ⟨?_, ?_⟩
  · rcases Nat.lt_or_eq_of_le hlo with hlt | heq
    · obtain ⟨b, hb, hhas⟩ := exists_block_of_not_free
        (by grind)
        (hmax.left (i.start - 1) (Nat.sub_add_cancel (Nat.one_le_of_lt hlt)))
      have hnot := hfirst b hb
      obtain ⟨hptr, hsize⟩ := h b hb
      simp only [Block.interval, Interval.Has, Interval.stop, nodeAlign] at *
      omega
    · rw [← heq]
      exact Nat.dvd_of_mod_eq_zero (by grind)
  · by_cases hbound : i.stop = region.start + region.size
    · rw [hbound]
      exact Nat.dvd_of_mod_eq_zero (by grind)
    · obtain ⟨b, hb, hhas⟩ := exists_block_of_not_free
        (by grind) hmax.right
      have hnot := hlast b hb
      obtain ⟨hptr, hsize⟩ := h b hb
      simp only [Block.interval, Interval.Has, Interval.stop, nodeAlign] at *
      omega

theorem alloc_of_findRegion_none {free free' : List Interval} {ptr : Nat}
    (hlayout : sizeAlign layout = some (size, align)) (hfind : findRegion size align free = none)
    (h : alloc free layout = some (ptr, free')) : ptr = 0 := by
  simp only [alloc, hlayout, hfind, Option.bind_eq_bind, Option.bind_some, Option.pure_def,
    Option.some.injEq, Prod.mk.injEq] at h
  exact h.1.symm

theorem alloc_pos (hinv : HeapInvariant region s) (hlayout : sizeAlign layout = some (size, align))
    (hfind : findRegion size align s.free ≠ none) :
    ∃ ptr free, alloc s.free layout = some (ptr, free) ∧ ptr ≠ 0 := by
  obtain ⟨⟨r, allocStart, rest⟩, hfound⟩ := Option.ne_none_iff_exists'.mp hfind
  obtain ⟨hfrom, before, after, hfree, -⟩ := findRegion_spec hfound
  obtain ⟨-, -, -, hpos, halign⟩ := sizeAlign_spec hlayout
  have hr : r ∈ s.free := by simp [hfree]
  have hstart := (allocFromRegion_spec hpos halign (hinv.freeList.bounded r hr) hfrom).start
  have hrpos := hinv.freeList.pos r hr
  have hheap : region.start ≤ r.start := ((hinv.covers r.start).mp
    ⟨r, hr, le_rfl, by grind⟩).1.1
  have hheapPos := region.start_pos
  simp only [alloc, hlayout, hfound, Option.bind_eq_bind, Option.bind_some, Option.pure_def]
  have hne : allocStart ≠ 0 := by omega
  exact ⟨_, _, rfl, hne⟩

def HasRoom (free : List Interval) (size align : Nat) : Prop :=
  ∃ region ∈ free, ∃ p, Fits region size align p

/-- In every reachable state a request for which there is room succeeds exactly
if it has room in a region that does not start one granule before a multiple of
the alignment. -/
theorem alloc_succeeds_iff (region : HeapRegion) (requests : List Request) (s : HeapState)
    (hrun : requests.foldlM HeapState.apply (HeapState.boot region) = some s)
    (layout : Layout) (size align : Nat) (hlayout : sizeAlign layout = some (size, align)) :
    (HasRoom s.free size layout.align →
      ∃ r ∈ s.free, (∃ p, Fits r size layout.align p) ∧ ¬ OffByNode r layout.align) ↔
    (HasRoom s.free size layout.align →
      ∃ ptr free, alloc s.free layout = some (ptr, free) ∧ ptr ≠ 0) := by
  obtain ⟨hinv, hgran⟩ := onGranules_of_run hrun
  obtain ⟨-, -, -, hpos, halign⟩ := sizeAlign_spec hlayout
  have hregion : ∀ r ∈ s.free, Granular r := fun r => granular_of_mem hinv hgran
  have hnone : ∀ r ∈ s.free, ∀ p, Fits r size align p →
      (allocFromRegion r size align = none ↔ OffByNode r align) := fun r hr p hfits =>
    allocFromRegion_eq_none_iff (hregion r hr) (hinv.freeList.bounded r hr)
      (sizeAlign_granular hlayout).2 hpos halign hfits
  refine imp_congr_right fun _ => ?_
  constructor
  · rintro ⟨r, hr, hroom, hoff⟩
    obtain ⟨p, hfits⟩ := (exists_fits_iff (hregion r hr) hlayout).mp hroom
    have hfind : findRegion size align s.free ≠ none := fun hall =>
      hoff ((offByNode_iff hlayout).mpr
        ((hnone r hr p hfits).mp ((findRegion_eq_none_iff s.free).mp hall r hr)))
    exact alloc_pos hinv hlayout hfind
  · rintro ⟨ptr, free, halloc, hptr⟩
    cases hfind : findRegion size align s.free with
    | none => exact absurd (alloc_of_findRegion_none hlayout hfind halloc) hptr
    | some found =>
      obtain ⟨r, allocStart, rest⟩ := found
      obtain ⟨hfrom, before, after, hfree, -⟩ := findRegion_spec hfind
      have hr : r ∈ s.free := by simp [hfree]
      have hfits := allocFromRegion_spec hpos halign (hinv.freeList.bounded r hr) hfrom
      refine ⟨r, hr, (exists_fits_iff (hregion r hr) hlayout).mpr ⟨allocStart, hfits⟩, ?_⟩
      intro hoff
      rw [(hnone r hr allocStart hfits).mpr ((offByNode_iff hlayout).mp hoff)] at hfrom
      cases hfrom

def packedPage : HeapRegion :=
  ⟨4096, 4096, by decide, by decide, by decide, by decide, by decide⟩

def eightBytesOver : HeapState :=
  ⟨[⟨4120, 4072⟩], [⟨4096, ⟨24, 3, by decide⟩⟩]⟩

/-- Right behind a block of 24 bytes a request of 8-byte alignment is served. -/
theorem alloc_succeeds_behind_block :
    HasRoom eightBytesOver.free 64 8 ∧
      ∃ ptr free, alloc eightBytesOver.free ⟨64, 3, by decide⟩ = some (ptr, free) ∧ ptr ≠ 0 := by
  have hroom : HasRoom eightBytesOver.free 64 8 :=
    ⟨⟨4120, 4072⟩, List.mem_singleton_self _, 4120, by decide, by decide, by decide,
      .inl (by decide), .inr (by decide)⟩
  refine ⟨hroom, (alloc_succeeds_iff packedPage [.alloc ⟨24, 3, by decide⟩] eightBytesOver
    (by decide +kernel) ⟨64, 3, by decide⟩ 64 8 (by decide +kernel)).mp ?_ hroom⟩
  rintro ⟨r, hr, hp⟩
  exact ⟨r, hr, hp, fun hoff => absurd hoff.1 (by decide)⟩

/-- With 24 bytes in use and 4072 free, 64 bytes aligned to 16 are refused,
although they would fit at `4144`. -/
theorem aligned_request_refused :
    [Request.alloc ⟨24, 3, by decide⟩].foldlM HeapState.apply (HeapState.boot packedPage) =
        some eightBytesOver ∧
      sizeAlign ⟨64, 4, by decide⟩ = some (64, 16) ∧
      Fits ⟨4120, 4072⟩ 64 16 4144 ∧
      alloc eightBytesOver.free ⟨64, 4, by decide⟩ = some (0, eightBytesOver.free) := by
  refine ⟨by decide +kernel, by decide +kernel, ?_, by decide +kernel⟩
  exact ⟨by decide, by decide, by decide, .inr (by decide), .inr (by decide)⟩

end AuraOS.KernelHeap
