import AuraOS.GuardedRuns
import AuraOS.KernelHeap

namespace AuraOS.KernelHeap

open IntervalLists GuardedRuns

variable {l rest free before after : List Interval} {addr size align allocStart ptr : Nat}
  {layout : Layout} {region : Interval} {s : HeapState}

def Bounded (l : List Interval) : Prop :=
  ∀ i ∈ l, i.stop ≤ 2 ^ 63

theorem endAddr_eq {i : Interval} (h : i.stop ≤ 2 ^ 63) : endAddr i = i.stop := by
  grind

theorem insertSorted_perm (node : Interval) (l : List Interval) :
    (insertSorted node l).Perm (node :: l) := by
  induction l with
  | nil => exact List.Perm.refl _
  | cons next rest ih =>
    simp only [insertSorted]
    split
    · exact List.Perm.refl _
    · exact (ih.cons next).trans (List.Perm.swap node next rest)

theorem separated_insertSorted {node : Interval} (hsep : Separated 0 l) (hnode : 0 < node.size)
    (hdisj : ∀ i ∈ l, node.Disjoint i) : Separated 0 (insertSorted node l) := by
  induction l with
  | nil => exact List.pairwise_singleton _ _
  | cons next rest ih =>
    obtain ⟨hnext, hrest⟩ := List.pairwise_cons.mp hsep
    have hfirst := hdisj next (by simp)
    simp only [insertSorted]
    split
    · rename_i hlt
      refine List.pairwise_cons.mpr ⟨?_, hsep⟩
      intro i hi
      rcases List.mem_cons.mp hi with rfl | hi
      · grind
      · have := hnext i hi
        grind
    · rename_i hge
      have hrec := ih hrest fun i hi => hdisj i (.tail _ hi)
      refine List.pairwise_cons.mpr ⟨?_, hrec⟩
      intro i hi
      rcases List.mem_cons.mp ((insertSorted_perm node rest).mem_iff.mp hi) with rfl | hi
      · grind
      · exact hnext i hi

/-- What coalescing from `current` over `rest` returns. -/
structure Coalesced (current : Interval) (rest result : List Interval) : Prop where
  separated : Separated 1 result
  covers : ∀ x, Covers result x ↔ Covers (current :: rest) x
  total : total result = total (current :: rest)
  start : ∀ i ∈ result, current.start ≤ i.start
  large : ∀ m, (∀ i ∈ current :: rest, m ≤ i.size) → ∀ i ∈ result, m ≤ i.size
  bounded : Bounded result

theorem coalesceFrom_spec {current : Interval} (hsep : Separated 0 (current :: rest))
    (hpos : ∀ i ∈ current :: rest, 0 < i.size) (hbound : Bounded (current :: rest)) :
    Coalesced current rest (coalesceFrom current rest) := by
  induction rest generalizing current with
  | nil =>
    exact ⟨List.pairwise_singleton _ _, fun x => Iff.rfl, rfl, by simp [coalesceFrom],
      fun m h => h, hbound⟩
  | cons next rest ih =>
    obtain ⟨hcur, hrest⟩ := List.pairwise_cons.mp hsep
    have hcn : current.stop ≤ next.start := hcur next (by simp)
    have hposcur := hpos current (by simp)
    have hboundcur := hbound current (by simp)
    have hboundnext := hbound next (by simp)
    simp only [coalesceFrom, endAddr_eq hboundcur]
    split
    · -- The two nodes touch: the loop goes on from the merged node.
      rename_i hmerge
      have hsize : (current.size + next.size) % addressSpace = current.size + next.size := by
        grind
      rw [hsize]
      obtain ⟨hnext, hrest'⟩ := List.pairwise_cons.mp hrest
      have hstop : Interval.stop ⟨current.start, current.size + next.size⟩ = next.stop := by
        grind
      have hrec : Coalesced ⟨current.start, current.size + next.size⟩ rest
          (coalesceFrom ⟨current.start, current.size + next.size⟩ rest) := by
        refine ih (List.pairwise_cons.mpr ⟨?_, hrest'⟩) ?_ ?_
        · intro i hi
          rw [hstop]
          exact hnext i hi
        · intro i hi
          rcases List.mem_cons.mp hi with rfl | hi
          · grind
          · exact hpos i (by simp [hi])
        · intro i hi
          rcases List.mem_cons.mp hi with rfl | hi
          · rw [hstop]
            exact hboundnext
          · exact hbound i (by simp [hi])
      refine ⟨hrec.separated, ?_, ?_, hrec.start, ?_, hrec.bounded⟩
      · intro x
        have hsplit : Interval.Has ⟨current.start, current.size + next.size⟩ x ↔
            current.Has x ∨ next.Has x := by
          grind
        rw [hrec.covers, covers_cons, covers_cons, covers_cons, hsplit, or_assoc]
      · rw [hrec.total]
        simp only [total_cons]
        omega
      · intro m hm
        refine hrec.large m fun i hi => ?_
        rcases List.mem_cons.mp hi with rfl | hi
        · have := hm current (by simp)
          grind
        · exact hm i (by simp [hi])
    · rename_i hapart
      have hrec := ih hrest (fun i hi => hpos i (.tail _ hi)) fun i hi => hbound i (.tail _ hi)
      refine ⟨List.pairwise_cons.mpr ⟨?_, hrec.separated⟩, ?_, ?_, ?_, ?_, ?_⟩
      · intro i hi
        have := hrec.start i hi
        omega
      · intro x
        rw [covers_cons, hrec.covers, ← covers_cons]
      · rw [total_cons, hrec.total, ← total_cons]
      · intro i hi
        rcases List.mem_cons.mp hi with rfl | hi
        · exact le_rfl
        · have := hrec.start i hi
          grind
      · intro m hm i hi
        rcases List.mem_cons.mp hi with rfl | hi
        · exact hm i (by simp)
        · exact hrec.large m (fun j hj => hm j (.tail _ hj)) i hi
      · intro i hi
        rcases List.mem_cons.mp hi with rfl | hi
        · exact hboundcur
        · exact hrec.bounded i hi

structure FreeList (l : List Interval) : Prop where
  separated : Separated 1 l
  large : ∀ i ∈ l, nodeSize ≤ i.size
  bounded : Bounded l

theorem FreeList.pos (h : FreeList l) : ∀ i ∈ l, 0 < i.size := by
  intro i hi
  have := h.large i hi
  grind

theorem FreeList.sublist {m : List Interval} (h : FreeList l) (hsub : m.Sublist l) :
    FreeList m where
  separated := h.separated.sublist hsub
  large := fun i hi => h.large i (hsub.subset hi)
  bounded := fun i hi => h.bounded i (hsub.subset hi)

theorem addFreeRegion_spec (h : FreeList l) (hsize : nodeSize ≤ size)
    (hbound : addr + size ≤ 2 ^ 63) (hdisj : ∀ i ∈ l, Interval.Disjoint ⟨addr, size⟩ i) :
    FreeList (addFreeRegion l addr size) ∧
      (∀ x, Covers (addFreeRegion l addr size) x ↔ Covers l x ∨ Interval.Has ⟨addr, size⟩ x) ∧
      total (addFreeRegion l addr size) = total l + size := by
  have hnode : 0 < size := by
    grind
  have hperm := insertSorted_perm ⟨addr, size⟩ l
  have hsep := separated_insertSorted (h.separated.mono (Nat.zero_le 1)) hnode hdisj
  have hadd : addFreeRegion l addr size = coalesce (insertSorted ⟨addr, size⟩ l) := by
    simp [addFreeRegion, Nat.not_lt.mpr hsize]
  rw [hadd]
  have hlarge : ∀ i ∈ insertSorted ⟨addr, size⟩ l, nodeSize ≤ i.size := by
    intro i hi
    rcases List.mem_cons.mp (hperm.mem_iff.mp hi) with rfl | hi
    · exact hsize
    · exact h.large i hi
  have hbounded : Bounded (insertSorted ⟨addr, size⟩ l) := by
    intro i hi
    rcases List.mem_cons.mp (hperm.mem_iff.mp hi) with rfl | hi
    · exact hbound
    · exact h.bounded i hi
  have hcover : ∀ x, Covers (insertSorted ⟨addr, size⟩ l) x ↔
      Covers l x ∨ Interval.Has ⟨addr, size⟩ x := by
    intro x
    rw [Covers.congr_mem (fun i => hperm.mem_iff) x, covers_cons, or_comm]
  have htotal : total (insertSorted ⟨addr, size⟩ l) = total l + size := by
    rw [total, (hperm.map Interval.size).sum_eq]
    simp [total, Nat.add_comm]
  cases hl : insertSorted ⟨addr, size⟩ l with
  | nil =>
    rw [hl] at hperm
    exact absurd hperm.symm (List.not_perm_nil_cons _ _ ∘ List.Perm.symm)
  | cons current rest =>
    rw [hl] at hsep hlarge hbounded hcover htotal
    have hspec := coalesceFrom_spec hsep (fun i hi => by
      grind) hbounded
    refine ⟨⟨hspec.separated, hspec.large nodeSize hlarge, hspec.bounded⟩, ?_, ?_⟩
    · exact fun x => (hspec.covers x).trans (hcover x)
    · exact hspec.total.trans htotal

section Layouts

theorem sizeAlign_spec (h : sizeAlign layout = some (size, align)) :
    nodeSize ≤ size ∧ size ≤ 2 ^ 63 ∧ layout.align ∣ align ∧ 0 < align ∧ align ≤ 2 ^ 63 := by
  obtain ⟨aligned, haligned, hpair⟩ := Option.bind_eq_some_iff.mp h
  obtain ⟨rfl, rfl⟩ := hpair
  have hpadfits := aligned.padToAlign.fits
  have hpos : 0 < 2 ^ aligned.padToAlign.shift := Nat.two_pow_pos _
  simp only [Layout.alignTo] at haligned
  split at haligned
  · cases haligned
    refine ⟨Nat.le_max_right _ _, ?_, ?_, hpos, ?_⟩
    · grind
    · exact Nat.pow_dvd_pow 2 (Nat.le_max_left _ _)
    · simp only [Layout.align]
      omega
  · cases haligned

theorem alignUp_spec (hpos : 0 < align) (haddr : addr + align ≤ 2 ^ 64) :
    align ∣ alignUp addr align ∧ addr ≤ alignUp addr align := by
  have hmod : (addr + align - 1) % addressSpace = addr + align - 1 := by
    grind
  simp only [alignUp, hmod]
  refine ⟨Nat.dvd_mul_left _ _, ?_⟩
  have hdiv := Nat.div_add_mod (addr + align - 1) align
  have hlt := Nat.mod_lt (addr + align - 1) hpos
  grind

end Layouts

structure Fits (region : Interval) (size align allocStart : Nat) : Prop where
  aligned : align ∣ allocStart
  start : region.start ≤ allocStart
  stop : allocStart + size ≤ region.stop
  before : region.start = allocStart ∨ region.start + nodeSize ≤ allocStart
  after : allocStart + size = region.stop ∨ allocStart + size + nodeSize ≤ region.stop

theorem allocFromRegion_spec (hpos : 0 < align) (halign : align ≤ 2 ^ 63)
    (hbound : region.stop ≤ 2 ^ 63) (h : allocFromRegion region size align = some allocStart) :
    Fits region size align allocStart := by
  have hstart : region.start + align ≤ 2 ^ 64 := by
    grind
  obtain ⟨hdvd, hle⟩ := alignUp_spec hpos hstart
  simp only [allocFromRegion, endAddr_eq hbound] at h
  split at h
  · cases h
  split at h
  · cases h
  rename_i hfits
  have hexcess : (alignUp region.start align + addressSpace - region.start) % addressSpace =
      alignUp region.start align - region.start := by
    grind
  split at h
  · cases h
  rename_i hbefore
  split at h
  · cases h
  rename_i hafter
  cases h
  refine ⟨hdvd, hle, by omega, ?_, ?_⟩
  · grind
  · grind

theorem findRegion_spec (h : findRegion size align free = some (region, allocStart, rest)) :
    allocFromRegion region size align = some allocStart ∧
      ∃ before after, free = before ++ region :: after ∧ rest = before ++ after := by
  induction free generalizing rest with
  | nil => simp [findRegion] at h
  | cons first tail ih =>
    simp only [findRegion] at h
    split at h
    · rename_i found hfound
      cases h
      exact ⟨hfound, [], tail, rfl, rfl⟩
    · obtain ⟨⟨region', start', rest'⟩, hfound, heq⟩ := Option.map_eq_some_iff.mp h
      obtain ⟨rfl, rfl, rfl⟩ := heq
      obtain ⟨hfits, before, after, hfree, hrest⟩ := ih hfound
      exact ⟨hfits, first :: before, after, by simp [hfree], by simp [hrest]⟩

theorem giveBack_spec (h : FreeList l) (addr size : Nat) (hsize : size = 0 ∨ nodeSize ≤ size)
    (hbound : addr + size ≤ 2 ^ 63) (hout : ∀ x, Interval.Has ⟨addr, size⟩ x → ¬ Covers l x) :
    let l' := if 0 < size then addFreeRegion l addr size else l
    FreeList l' ∧ (∀ x, Covers l' x ↔ Covers l x ∨ Interval.Has ⟨addr, size⟩ x) ∧
      total l' = total l + size := by
  rcases hsize with rfl | hsize
  · refine ⟨by simpa using h, ?_, by simp⟩
    intro x
    have hempty : ¬ Interval.Has ⟨addr, 0⟩ x := by
      grind
    simp [hempty]
  · have hpos : 0 < size := by
      grind
    have hdisj : ∀ i ∈ l, Interval.Disjoint ⟨addr, size⟩ i := fun i hi =>
      Interval.disjoint_of_not_has hpos (h.pos i hi) fun x hx hix => hout x hx ⟨i, hi, hix⟩
    simpa [hpos] using addFreeRegion_spec h hsize hbound hdisj

structure Carved (free free' : List Interval) (ptr size align : Nat) : Prop where
  freeList : FreeList free'
  aligned : align ∣ ptr
  inside : ∀ x, Interval.Has ⟨ptr, size⟩ x → Covers free x
  covers : ∀ x, Covers free' x ↔ Covers free x ∧ ¬ Interval.Has ⟨ptr, size⟩ x
  total : total free' + size = total free

theorem not_has_of_covers_rest (hfree : FreeList (before ++ region :: after)) {x : Nat}
    (hx : Covers (before ++ after) x) : ¬ region.Has x := by
  obtain ⟨i, hi, hix⟩ := hx
  have hne : i ≠ region := by
    rintro rfl
    have hnodup := hfree.separated.nodup
    rw [List.nodup_middle] at hnodup
    exact (List.nodup_cons.mp hnodup).1 hi
  have hmem : i ∈ before ++ region :: after := by
    simp only [List.mem_append, List.mem_cons] at hi ⊢
    tauto
  have hapart := hfree.separated.apart hmem (by simp) hne
  grind

theorem carved_of_fits (hfree : FreeList (before ++ region :: after))
    (hfits : Fits region size align allocStart) :
    let rest := if 0 < region.stop - (allocStart + size) then
        addFreeRegion (before ++ after) (allocStart + size) (region.stop - (allocStart + size))
      else before ++ after
    let rest' := if 0 < allocStart - region.start then
        addFreeRegion rest region.start (allocStart - region.start)
      else rest
    Carved (before ++ region :: after) rest' allocStart size align := by
  intro rest rest'
  have hbound := hfree.bounded region (by simp)
  have hbefore := hfits.before
  have hafter := hfits.after
  have houter : ∀ x, Covers (before ++ after) x → ¬ region.Has x := fun x hx =>
    not_has_of_covers_rest hfree hx
  -- The suffix goes back first, then the part in front of the block.
  obtain ⟨hfree₁, hcover₁, htotal₁⟩ := giveBack_spec
    (hfree.sublist ((List.sublist_cons_self region after).append_left before))
    (allocStart + size) (region.stop - (allocStart + size)) (by omega) (by omega) (by
      intro x hx hcov
      refine houter x hcov ?_
      grind)
  obtain ⟨hfree₂, hcover₂, htotal₂⟩ := giveBack_spec hfree₁
    region.start (allocStart - region.start) (by omega) (by omega) (by
      intro x hx hcov
      rcases (hcover₁ x).mp hcov with hcov | hcov
      · refine houter x hcov ?_
        grind
      · grind)
  have hfull : ∀ x, Covers (before ++ region :: after) x ↔
      Covers (before ++ after) x ∨ region.Has x := by
    intro x
    rw [covers_append, covers_cons, covers_append, or_left_comm, or_comm]
  refine ⟨hfree₂, hfits.aligned, ?_, ?_, ?_⟩
  · intro x hx
    refine (hfull x).mpr (.inr ?_)
    grind
  · intro x
    have hparts : region.Has x ∧ ¬ Interval.Has ⟨allocStart, size⟩ x ↔
        Interval.Has ⟨allocStart + size, region.stop - (allocStart + size)⟩ x ∨
          Interval.Has ⟨region.start, allocStart - region.start⟩ x := by
      grind
    have hblock : Interval.Has ⟨allocStart, size⟩ x → region.Has x := by
      grind
    have hx := houter x
    rw [hcover₂, hcover₁, hfull]
    constructor
    · rintro ((hc | hs) | hp)
      · exact ⟨.inl hc, fun hb => hx hc (hblock hb)⟩
      · have hr := hparts.mpr (.inl hs)
        exact ⟨.inr hr.1, hr.2⟩
      · have hr := hparts.mpr (.inr hp)
        exact ⟨.inr hr.1, hr.2⟩
    · rintro ⟨hc | hr, hb⟩
      · exact .inl (.inl hc)
      · rcases hparts.mp ⟨hr, hb⟩ with hs | hp
        · exact .inl (.inr hs)
        · exact .inr hp
  · have hregion : region.stop = region.start + region.size := rfl
    have hrest : total rest = total (before ++ after) + (region.stop - (allocStart + size)) :=
      htotal₁
    have hrest' : total rest' = total rest + (allocStart - region.start) := htotal₂
    simp only [total_append, total_cons] at hrest ⊢
    omega

theorem alloc_spec (hfree : FreeList free) {free' : List Interval}
    (h : alloc free layout = some (ptr, free')) :
    (ptr = 0 ∧ free' = free) ∨
      ∃ size align, sizeAlign layout = some (size, align) ∧ Carved free free' ptr size align := by
  obtain ⟨⟨size, align⟩, hsa, h⟩ := Option.bind_eq_some_iff.mp h
  obtain ⟨-, -, -, hapos, hale⟩ := sizeAlign_spec hsa
  cases hfind : findRegion size align free with
  | none =>
    simp only [hfind, Option.pure_def, Option.some.injEq, Prod.mk.injEq] at h
    exact .inl ⟨h.1.symm, h.2.symm⟩
  | some found =>
    obtain ⟨region, allocStart, rest⟩ := found
    refine .inr ⟨size, align, hsa, ?_⟩
    obtain ⟨hfrom, before, after, rfl, rfl⟩ := findRegion_spec hfind
    have hbound := hfree.bounded region (by simp)
    have hfits := allocFromRegion_spec hapos hale hbound hfrom
    have hstart := hfits.start
    have hstop := hfits.stop
    have hend : (allocStart + size) % addressSpace = allocStart + size := by
      grind
    have hsuffix : (region.stop + addressSpace - (allocStart + size)) % addressSpace =
        region.stop - (allocStart + size) := by
      grind
    have hexcess : (allocStart + addressSpace - region.start) % addressSpace =
        allocStart - region.start := by
      grind
    simp only [hfind, endAddr_eq hbound, hend, hsuffix, hexcess, Option.pure_def,
      Option.some.injEq, Prod.mk.injEq] at h
    obtain ⟨rfl, rfl⟩ := h
    exact carved_of_fits hfree hfits

structure HeapInvariant (region : HeapRegion) (s : HeapState) : Prop where
  freeList : FreeList s.free
  covers : ∀ x, Covers s.free x ↔
    Interval.Has ⟨region.start, region.size⟩ x ∧ ∀ b ∈ s.live, ¬ b.interval.Has x
  padded : ∀ b ∈ s.live, nodeSize ≤ b.paddedSize
  aligned : ∀ b ∈ s.live, b.layout.align ∣ b.ptr
  inside : ∀ b ∈ s.live, region.start ≤ b.ptr ∧ b.ptr + b.paddedSize ≤ region.start + region.size
  disjoint : s.live.Pairwise fun b c => b.interval.Disjoint c.interval
  total : total s.free + (s.live.map Block.paddedSize).sum = region.size

theorem heapInvariant_boot (region : HeapRegion) :
    HeapInvariant region (HeapState.boot region) := by
  have hsize : nodeSize ≤ region.size := by
    have hpos := region.size_pos
    have hpages := region.size_pages
    grind
  obtain ⟨hfree, hcover, htotal⟩ := addFreeRegion_spec (l := [])
    ⟨List.Pairwise.nil, by simp, by simp [Bounded]⟩ hsize region.lower_half (by simp)
  refine ⟨hfree, ?_, by simp [HeapState.boot], by simp [HeapState.boot],
    by simp [HeapState.boot], List.Pairwise.nil, by simpa [HeapState.boot] using htotal⟩
  intro x
  simpa [HeapState.boot, covers_nil] using hcover x

namespace HeapInvariant

variable {region : HeapRegion} {s : HeapState}

variable (h : HeapInvariant region s)
include h

theorem alloc (halloc : KernelHeap.alloc s.free layout = some (ptr, free)) :
    HeapInvariant region ⟨free, if ptr = 0 then s.live else ⟨ptr, layout⟩ :: s.live⟩ := by
  rcases alloc_spec h.freeList halloc with ⟨rfl, rfl⟩ | ⟨size, align, hsa, hcarved⟩
  · simpa using h
  obtain ⟨hsize, -, hdvd, -, -⟩ := sizeAlign_spec hsa
  have hpadded : (⟨ptr, layout⟩ : Block).paddedSize = size := by simp [Block.paddedSize, hsa]
  have hint : (⟨ptr, layout⟩ : Block).interval = ⟨ptr, size⟩ := by
    simp [Block.interval, hpadded]
  have hpos : 0 < size := by
    grind
  have hheap : ∀ x, Interval.Has ⟨ptr, size⟩ x →
      Interval.Has ⟨region.start, region.size⟩ x ∧ ∀ b ∈ s.live, ¬ b.interval.Has x :=
    fun x hx => (h.covers x).mp (hcarved.inside x hx)
  have hfirst := (hheap ptr ⟨le_rfl, by simp [Interval.stop, hpos]⟩).1
  have hlast := (hheap (ptr + size - 1) (by
    simp only [Interval.Has, Interval.stop]
    omega)).1
  simp only [Interval.Has, Interval.stop] at hfirst hlast
  have hptr : ptr ≠ 0 := by
    have := region.start_pos
    omega
  rw [if_neg hptr]
  refine ⟨hcarved.freeList, ?_, ?_, ?_, ?_, ?_, ?_⟩
  · intro x
    rw [hcarved.covers, h.covers]
    simp only [List.forall_mem_cons, hint]
    tauto
  · simpa only [List.forall_mem_cons, hpadded] using ⟨hsize, h.padded⟩
  · simpa only [List.forall_mem_cons] using ⟨hdvd.trans hcarved.aligned, h.aligned⟩
  · simp only [List.forall_mem_cons, hpadded]
    exact ⟨by omega, h.inside⟩
  · refine List.pairwise_cons.mpr ⟨?_, h.disjoint⟩
    intro b hb
    have hbpos : 0 < b.interval.size := Nat.lt_of_lt_of_le (by decide) (h.padded b hb)
    rw [hint]
    exact Interval.disjoint_of_not_has hpos hbpos fun x hx => (hheap x hx).2 b hb
  · have htotal := h.total
    have hcut := hcarved.total
    grind

theorem live_nodup : s.live.Nodup := by
  refine h.disjoint.imp_of_mem ?_
  rintro b c hb - hbc rfl
  have hsize := h.padded b hb
  simp only [Interval.Disjoint, Interval.stop, Block.interval, nodeSize] at *
  omega

theorem disjoint_of_ne {b c : Block} (hb : b ∈ s.live)
    (hc : c ∈ s.live) (hne : b ≠ c) : b.interval.Disjoint c.interval := by
  have : Std.Symm fun b c : Block => b.interval.Disjoint c.interval :=
    ⟨fun _ _ => Interval.Disjoint.symm⟩
  exact h.disjoint.forall hb hc hne

theorem dealloc {block : Block} (hblock : block ∈ s.live)
    (hdealloc : KernelHeap.dealloc s.free block.ptr block.layout = some free) :
    HeapInvariant region ⟨free, s.live.erase block⟩ := by
  obtain ⟨⟨size, align⟩, hsa, hfree⟩ := Option.bind_eq_some_iff.mp hdealloc
  simp only [Option.pure_def, Option.some.injEq] at hfree
  subst hfree
  have hpadded : block.paddedSize = size := by simp [Block.paddedSize, hsa]
  have hint : block.interval = ⟨block.ptr, size⟩ := by simp [Block.interval, hpadded]
  have hsize : nodeSize ≤ size := hpadded ▸ h.padded block hblock
  have hinside := h.inside block hblock
  rw [hpadded] at hinside
  have hpos : 0 < size := Nat.lt_of_lt_of_le (by decide) hsize
  have hdisj : ∀ i ∈ s.free, Interval.Disjoint ⟨block.ptr, size⟩ i := by
    intro i hi
    refine Interval.disjoint_of_not_has hpos (h.freeList.pos i hi) ?_
    intro x hx hix
    exact ((h.covers x).mp ⟨i, hi, hix⟩).2 block hblock (hint ▸ hx)
  obtain ⟨hfree', hcover, htotal⟩ := addFreeRegion_spec h.freeList hsize
    (Nat.le_trans hinside.2 region.lower_half) hdisj
  have hsub : s.live.erase block ⊆ s.live := List.erase_subset
  refine ⟨hfree', ?_, fun b hb => h.padded b (hsub hb), fun b hb => h.aligned b (hsub hb),
    fun b hb => h.inside b (hsub hb), h.disjoint.sublist List.erase_sublist, ?_⟩
  · intro x
    rw [hcover, h.covers, ← hint]
    constructor
    · rintro (⟨hheap, hout⟩ | hx)
      · exact ⟨hheap, fun b hb => hout b (hsub hb)⟩
      · refine ⟨?_, ?_⟩
        · grind
        · intro b hb
          obtain ⟨hne, hb⟩ := h.live_nodup.mem_erase_iff.mp hb
          exact (h.disjoint_of_ne hblock hb hne.symm).not_has hx
    · rintro ⟨hheap, hout⟩
      by_cases hx : block.interval.Has x
      · exact .inr hx
      · refine .inl ⟨hheap, fun b hb => ?_⟩
        by_cases hne : b = block
        · exact hne ▸ hx
        · exact hout b (h.live_nodup.mem_erase_iff.mpr ⟨hne, hb⟩)
  · have hsum := List.sum_map_erase Block.paddedSize hblock
    have hall := h.total
    grind

theorem apply {request : Request} {s' : HeapState}
    (hstep : s.apply request = some s') : HeapInvariant region s' := by
  cases request with
  | alloc layout =>
    obtain ⟨⟨ptr, free⟩, halloc, heq⟩ := Option.bind_eq_some_iff.mp hstep
    cases heq
    exact h.alloc halloc
  | dealloc block =>
    simp only [HeapState.apply] at hstep
    split at hstep
    · rename_i hblock
      obtain ⟨free, hdealloc, heq⟩ := Option.bind_eq_some_iff.mp hstep
      cases heq
      exact h.dealloc hblock hdealloc
    · cases hstep

end HeapInvariant

theorem heapInvariant_of_run {region : HeapRegion} {requests : List Request}
    (hrun : requests.foldlM HeapState.apply (HeapState.boot region) = some s) :
    HeapInvariant region s :=
  invariant_of_foldlM (fun _ _ _ h hstep => h.apply hstep) (heapInvariant_boot region) hrun

theorem freeMemory_eq (h : total l < addressSpace) : freeMemory l = total l := by
  have hfold : ∀ (l : List Interval) (acc : Nat), acc + total l < addressSpace →
      l.foldl (fun total region => (total + region.size) % addressSpace) acc = acc + total l := by
    intro l
    induction l with
    | nil => simp
    | cons i rest ih =>
      intro acc hacc
      simp only [total_cons] at hacc
      have hmod : (acc + i.size) % addressSpace = acc + i.size := Nat.mod_eq_of_lt (by omega)
      rw [List.foldl_cons, hmod, ih _ (by omega), total_cons, Nat.add_assoc]
  simpa [freeMemory] using hfold l 0 (by omega)

def FreeAddress (region : HeapRegion) (live : List Block) (x : Nat) : Prop :=
  Interval.Has ⟨region.start, region.size⟩ x ∧ ∀ b ∈ live, ¬ b.interval.Has x

structure HeapCorrect (region : HeapRegion) (s : HeapState) : Prop where
  aligned : ∀ b ∈ s.live, b.layout.align ∣ b.ptr
  inside : ∀ b ∈ s.live, region.start ≤ b.ptr ∧ b.ptr + b.paddedSize ≤ region.start + region.size
  disjoint : s.live.Pairwise fun b c => b.interval.Disjoint c.interval
  sorted : s.free.Pairwise fun i j => i.start < j.start
  maximal : ∀ i, i ∈ s.free ↔ IsMaximal (FreeAddress region s.live) i
  large : ∀ i ∈ s.free, nodeSize ≤ i.size
  accounted : freeMemory s.free + (s.live.map Block.paddedSize).sum = region.size

theorem HeapInvariant.heapCorrect {region : HeapRegion} (h : HeapInvariant region s) :
    HeapCorrect region s where
  aligned := h.aligned
  inside := h.inside
  disjoint := h.disjoint
  sorted := by
    refine h.freeList.separated.imp ?_
    intro i j hij
    grind
  maximal := by
    intro i
    have hset : Covers s.free = FreeAddress region s.live :=
      funext fun x => propext (h.covers x)
    rw [mem_iff_isMaximal h.freeList.separated h.freeList.pos, hset]
  large := h.freeList.large
  accounted := by
    have htotal := h.total
    have hhalf := region.lower_half
    rw [freeMemory_eq (by grind), htotal]

/-- After any sequence of calls the allocator is correct, and any other
sequence that leaves the same blocks live leaves the same free list. -/
theorem heapCorrect_of_run (region : HeapRegion) (requests : List Request) (s : HeapState)
    (hrun : requests.foldlM HeapState.apply (HeapState.boot region) = some s) :
    HeapCorrect region s ∧
      ∀ (requests' : List Request) (s' : HeapState),
        requests'.foldlM HeapState.apply (HeapState.boot region) = some s' →
          (∀ b, b ∈ s'.live ↔ b ∈ s.live) → s'.free = s.free := by
  have h := heapInvariant_of_run hrun
  refine ⟨h.heapCorrect, ?_⟩
  intro requests' s' hrun' hlive
  have h' := heapInvariant_of_run hrun'
  refine h'.freeList.separated.unique h.freeList.separated h'.freeList.pos h.freeList.pos ?_
  intro x
  rw [h'.covers, h.covers]
  simp only [hlive]

/-- One page of heap, two blocks taken and the first given back. -/
theorem heapCorrect_of_two_blocks :
    HeapCorrect ⟨4096, 4096, by decide, by decide, by decide, by decide, by decide⟩
      ⟨[⟨4096, 64⟩, ⟨4224, 3968⟩], [⟨4160, ⟨1, 6, by decide⟩⟩]⟩ :=
  (heapCorrect_of_run ⟨4096, 4096, by decide, by decide, by decide, by decide, by decide⟩
    [.alloc ⟨24, 3, by decide⟩, .alloc ⟨1, 6, by decide⟩, .dealloc ⟨4096, ⟨24, 3, by decide⟩⟩]
    ⟨[⟨4096, 64⟩, ⟨4224, 3968⟩], [⟨4160, ⟨1, 6, by decide⟩⟩]⟩ (by decide +kernel)).1

end AuraOS.KernelHeap
