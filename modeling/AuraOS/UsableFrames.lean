import AuraOS.FrameAllocator
import AuraOS.GuardedRuns

namespace AuraOS.PhysicalFrames

open GuardedRuns

variable {pmm : Pmm} {addr n a : Nat} {memoryMap : List MemoryRegion} {calls : List FrameCall}

inductive MemoryRegionKind where
  | usable
  | reserved
  | acpiReclaimable
  | acpiNvs
  | badMemory
  | bootloader
  | kernel
  | mmio
deriving DecidableEq, Repr

structure MemoryRegion where
  start : UInt64
  stop : UInt64
  kind : MemoryRegionKind
deriving DecidableEq, Repr

def MemoryRegion.isUsable (region : MemoryRegion) : Bool :=
  region.kind = .usable

def maxRegions : Nat := 64

/-- Clears the bit of the frame that holds `addr`. -/
def Pmm.releaseFrame (pmm : Pmm) (addr : Nat) : Pmm :=
  if ¬ (pmmBase ≤ addr ∧ addr < pmmEnd) then pmm
  else
    let frame := (addr - pmmBase) / pageSize
    pmm.setWord (frame / 64) (pmm.bitmap (frame / 64) &&& ~~~ BitVec.twoPow 64 (frame % 64))

/-- The loop of `init` over the frames of one region. -/
def Pmm.releaseFrom (stop : Nat) : Nat → Nat → Pmm → Pmm
  | 0, _, pmm => pmm
  | fuel + 1, addr, pmm =>
    if addr < stop then Pmm.releaseFrom stop fuel (addr + pageSize) (pmm.releaseFrame addr)
    else pmm

/-- `start` is rounded up to a page in 64-bit arithmetic. -/
def Pmm.releaseRegion (pmm : Pmm) (region : MemoryRegion) : Pmm :=
  let start := max region.start.toNat pmmBase
  let stop := min region.stop.toNat pmmEnd
  let addr := (start + pageSize - 1) % 2 ^ 64 / pageSize * pageSize
  -- the end is at most `pmmEnd`, so the loop is left by its condition
  Pmm.releaseFrom stop (pmmEnd / pageSize) addr pmm

def Pmm.full : Pmm :=
  ⟨fun _ => BitVec.allOnes 64⟩

def Pmm.init (memoryMap : List MemoryRegion) : Pmm :=
  ((memoryMap.take maxRegions).filter MemoryRegion.isUsable).foldl Pmm.releaseRegion Pmm.full

/-- The whole frame at `addr` lies in the region. -/
def MemoryRegion.Contains (region : MemoryRegion) (addr : Nat) : Prop :=
  region.start.toNat ≤ addr ∧ addr + pageSize ≤ region.stop.toNat

/-- The frame at `addr` lies in one region the firmware marks usable. -/
def UsableFrame (memoryMap : List MemoryRegion) (addr : Nat) : Prop :=
  ∃ region ∈ memoryMap, region.isUsable = true ∧ region.Contains addr

def PageAligned (memoryMap : List MemoryRegion) : Prop :=
  ∀ region ∈ memoryMap, region.start.toNat % pageSize = 0 ∧ region.stop.toNat % pageSize = 0

theorem freeAt_iff (pmm : Pmm) (addr : Nat) :
    pmm.FreeAt addr ↔ (pmmBase ≤ addr ∧ addr < pmmEnd) ∧ addr % pageSize = 0 ∧
      pmm.isUsed ((addr - pmmBase) / pageSize) = false :=
  frameAt_iff (pmm.isUsed · = false) addr

theorem full_freeAt (addr : Nat) : ¬ Pmm.full.FreeAt addr := by
  rintro ⟨frame, -, -, hfree⟩
  have hbit : frame % 64 < 64 := Nat.mod_lt _ (by decide)
  rw [Pmm.isUsed, Pmm.full, BitVec.getLsbD_allOnes, decide_eq_true hbit] at hfree
  cases hfree

theorem isUsed_releaseFrame (h : pmmBase ≤ addr ∧ addr < pmmEnd) (j : Nat) :
    (pmm.releaseFrame addr).isUsed j =
      (pmm.isUsed j && decide (j ≠ (addr - pmmBase) / pageSize)) := by
  have hguard : ¬ ¬ (pmmBase ≤ addr ∧ addr < pmmEnd) := not_not.mpr h
  rw [Pmm.releaseFrame, if_neg hguard]
  exact isUsed_clearBit pmm _ j

theorem releaseFrame_freeAt (halign : addr % pageSize = 0) (a : Nat) :
    (pmm.releaseFrame addr).FreeAt a ↔
      pmm.FreeAt a ∨ a = addr ∧ pmmBase ≤ addr ∧ addr < pmmEnd := by
  by_cases hwindow : pmmBase ≤ addr ∧ addr < pmmEnd
  · simp only [freeAt_iff, isUsed_releaseFrame hwindow, Bool.and_eq_false_iff,
      decide_eq_false_iff_not, ne_eq, not_not]
    have hsame : (pmmBase ≤ a ∧ a < pmmEnd) → a % pageSize = 0 →
        ((a - pmmBase) / pageSize = (addr - pmmBase) / pageSize ↔ a = addr) := by
      intro ha haalign
      grind
    constructor
    · rintro ⟨ha, haalign, hused | heq⟩
      · exact .inl ⟨ha, haalign, hused⟩
      · exact .inr ⟨(hsame ha haalign).mp heq, hwindow⟩
    · rintro (⟨ha, haalign, hused⟩ | ⟨rfl, -⟩)
      · exact ⟨ha, haalign, .inl hused⟩
      · exact ⟨hwindow, halign, .inr rfl⟩
  · rw [Pmm.releaseFrame, if_pos hwindow]
    simp [hwindow]

theorem releaseFrom_freeAt {stop fuel : Nat} (halign : addr % pageSize = 0)
    (hfuel : stop ≤ addr + fuel * pageSize) (a : Nat) :
    (Pmm.releaseFrom stop fuel addr pmm).FreeAt a ↔
      pmm.FreeAt a ∨ (addr ≤ a ∧ a < stop ∧ a % pageSize = 0) ∧ pmmBase ≤ a ∧ a < pmmEnd := by
  induction fuel generalizing addr pmm with
  | zero =>
    refine (or_iff_left ?_).symm
    rintro ⟨⟨hlo, hhi, -⟩, -⟩
    omega
  | succ fuel ih =>
    rw [Pmm.releaseFrom]
    by_cases hlt : addr < stop
    · rw [if_pos hlt, ih (by grind)
        (by rw [Nat.succ_mul] at hfuel; omega), releaseFrame_freeAt halign, or_assoc]
      refine or_congr_right ?_
      simp only [pageSize] at *
      constructor
      · rintro (⟨rfl, hwindow⟩ | ⟨⟨hlo, hhi⟩, hwindow⟩)
        · exact ⟨⟨le_rfl, hlt, halign⟩, hwindow⟩
        · exact ⟨⟨by omega, hhi⟩, hwindow⟩
      · rintro ⟨⟨hlo, hhi, ha⟩, hwindow⟩
        by_cases heq : a = addr
        · exact .inl ⟨heq, heq ▸ hwindow⟩
        · exact .inr ⟨⟨by omega, hhi, ha⟩, hwindow⟩
    · rw [if_neg hlt]
      refine (or_iff_left ?_).symm
      rintro ⟨⟨hlo, hhi, -⟩, -⟩
      omega

theorem releaseRegion_freeAt {region : MemoryRegion} (hstart : region.start.toNat % pageSize = 0)
    (hstop : region.stop.toNat % pageSize = 0) (a : Nat) :
    (pmm.releaseRegion region).FreeAt a ↔
      pmm.FreeAt a ∨ ((pmmBase ≤ a ∧ a < pmmEnd) ∧ a % pageSize = 0) ∧ region.Contains a := by
  have hword : region.start.toNat < 2 ^ 64 := region.start.toNat_lt
  have hround : (max region.start.toNat pmmBase + pageSize - 1) % 2 ^ 64 / pageSize * pageSize =
      max region.start.toNat pmmBase := by
    grind
  simp only [Pmm.releaseRegion, hround]
  rw [releaseFrom_freeAt (by grind)
    (by grind)]
  refine or_congr_right ?_
  simp only [MemoryRegion.Contains, pmmBase, pmmEnd, pageSize] at *
  omega

theorem init_freeAt (h : PageAligned memoryMap) (a : Nat) :
    (Pmm.init memoryMap).FreeAt a ↔
      ((pmmBase ≤ a ∧ a < pmmEnd) ∧ a % pageSize = 0) ∧
        UsableFrame (memoryMap.take maxRegions) a := by
  have hfold : ∀ (regions : List MemoryRegion), PageAligned regions → ∀ pmm : Pmm,
      ((regions.filter MemoryRegion.isUsable).foldl Pmm.releaseRegion pmm).FreeAt a ↔
        pmm.FreeAt a ∨ ((pmmBase ≤ a ∧ a < pmmEnd) ∧ a % pageSize = 0) ∧ UsableFrame regions a := by
    intro regions
    induction regions with
    | nil => simp [UsableFrame]
    | cons region rest ih =>
      intro haligned pmm
      have hrest : PageAligned rest := fun r hr => haligned r (.tail _ hr)
      obtain ⟨hstart, hstop⟩ := haligned region (.head _)
      have hsplit : UsableFrame (region :: rest) a ↔
          (region.isUsable = true ∧ region.Contains a) ∨ UsableFrame rest a := by
        simp only [UsableFrame, List.mem_cons, or_and_right, exists_or, exists_eq_left]
      rw [List.filter_cons, hsplit]
      split
      · rename_i husable
        rw [List.foldl_cons, ih hrest, releaseRegion_freeAt hstart hstop, or_assoc]
        simp only [husable, true_and, and_or_left]
      · rename_i husable
        rw [ih hrest]
        simp only [husable, Bool.false_eq_true, false_and, false_or]
  have htake : PageAligned (memoryMap.take maxRegions) :=
    fun r hr => h r (List.mem_of_mem_take hr)
  rw [Pmm.init, hfold _ htake]
  exact or_iff_right (full_freeAt a)

theorem UsableFrame.of_take (h : UsableFrame (memoryMap.take n) addr) :
    UsableFrame memoryMap addr := by
  obtain ⟨region, hmem, hregion⟩ := h
  exact ⟨region, List.mem_of_mem_take hmem, hregion⟩

theorem freeAt_of_released (h : ∀ k < n, ∀ addr, Released pmm calls k addr → pmm.FreeAt addr)
    (ha : (pmm.after (calls.take n)).FreeAt a) : pmm.FreeAt a := by
  induction n with
  | zero => exact ha
  | succ n ih =>
    have ih := ih fun k hk => h k (by omega)
    cases hcall : calls[n]? with
    | none =>
      rw [List.take_add_one, hcall, Option.toList_none, List.append_nil] at ha
      exact ih ha
    | some call =>
      rw [after_take_succ hcall] at ha
      cases call with
      | allocateFrame =>
        refine ih ?_
        cases halloc : (pmm.after (calls.take n)).allocFrame with
        | none => simpa only [Pmm.perform, halloc] using ha
        | some found =>
          simp only [Pmm.perform, halloc] at ha
          exact (((allocFrame_spec halloc).free_iff a).mp ha).1
      | freeFrame addr =>
        rcases ((freeFrame_spec _ addr).free_iff a).mp ha with ha | ⟨rfl, hused⟩
        · exact ih ha
        · exact h n (by omega) a ⟨hcall, congrArg FrameReply.freed ((freeFrame_fst _ _).mpr hused)⟩

theorem returned_of_usedAt (hfree : pmm.FreeAt a) (hused : (pmm.after (calls.take n)).UsedAt a) :
    ∃ k < n, Returned pmm calls k a := by
  induction n with
  | zero => exact absurd hfree hused.not_freeAt
  | succ n ih =>
    have hearlier : (pmm.after (calls.take n)).UsedAt a → ∃ k < n + 1, Returned pmm calls k a := by
      intro hbefore
      obtain ⟨k, hk, hreturned⟩ := ih hbefore
      exact ⟨k, by omega, hreturned⟩
    cases hcall : calls[n]? with
    | none =>
      rw [List.take_add_one, hcall, Option.toList_none, List.append_nil] at hused
      exact hearlier hused
    | some call =>
      rw [after_take_succ hcall] at hused
      cases call with
      | allocateFrame =>
        cases halloc : (pmm.after (calls.take n)).allocFrame with
        | none => exact hearlier (by simpa only [Pmm.perform, halloc] using hused)
        | some found =>
          simp only [Pmm.perform, halloc] at hused
          rcases ((allocFrame_spec halloc).used_iff a).mp hused with hused | rfl
          · exact hearlier hused
          · exact ⟨n, by omega, hcall, by simp only [Pmm.perform, halloc]⟩
      | freeFrame addr => exact hearlier (((freeFrame_spec _ addr).used_iff a).mp hused).1

theorem Returned.freeAt {k : Nat} (h : Returned pmm calls k addr) :
    (pmm.after (calls.take k)).FreeAt addr :=
  (perform_frame h.2).free

/-- A call that releases a frame in use names one that the firmware marks
usable, in a region that `init` has room to record. -/
def ReleasesUsable (memoryMap : List MemoryRegion) (pmm : Pmm) (call : FrameCall) : Prop :=
  ∀ addr, call = .freeFrame addr → pmm.UsedAt addr → UsableFrame (memoryMap.take maxRegions) addr

/-- In a history from boot every frame handed out is usable, and every frame
given back has been handed out before, exactly if each release that takes
effect names a usable frame. -/
theorem usable_frames_iff (memoryMap : List MemoryRegion) (h : PageAligned memoryMap)
    (calls : List FrameCall) :
    Guarded (fun pmm call => (pmm.perform call).2) (ReleasesUsable memoryMap)
        (Pmm.init memoryMap) calls ↔
      (∀ k addr, Returned (Pmm.init memoryMap) calls k addr → UsableFrame memoryMap addr) ∧
        ∀ k addr, Released (Pmm.init memoryMap) calls k addr →
          ∃ i < k, Returned (Pmm.init memoryMap) calls i addr := by
  rw [guarded_iff_getElem?]
  constructor
  · intro hguard
    have hreleased : ∀ k addr, Released (Pmm.init memoryMap) calls k addr →
        (Pmm.init memoryMap).FreeAt addr := by
      intro k addr hrel
      have hused := (freeFrame_fst _ _).mp (FrameReply.freed.inj hrel.2)
      have hwindow := (usedAt_iff _ _).mp hused
      exact (init_freeAt h addr).mpr ⟨⟨hwindow.1, hwindow.2.1⟩, hguard k _ hrel.1 addr rfl hused⟩
    refine ⟨fun k addr hret => ?_, fun k addr hrel => ?_⟩
    · have hinit := freeAt_of_released (fun i _ => hreleased i) hret.freeAt
      exact ((init_freeAt h addr).mp hinit).2.of_take
    · exact returned_of_usedAt (hreleased k addr hrel)
        ((freeFrame_fst _ _).mp (FrameReply.freed.inj hrel.2))
  · rintro ⟨-, hbefore⟩
    -- the frame handed out earlier was in the pool then, by induction on the position
    have hreleased : ∀ k addr, Released (Pmm.init memoryMap) calls k addr →
        (Pmm.init memoryMap).FreeAt addr := by
      intro k
      induction k using Nat.strong_induction_on with
      | _ k ih =>
        intro addr hrel
        obtain ⟨i, hi, hret⟩ := hbefore k addr hrel
        exact freeAt_of_released (fun j hj => ih j (by omega)) hret.freeAt
    rintro k call hcall addr rfl hused
    have hrel : Released (Pmm.init memoryMap) calls k addr :=
      ⟨hcall, congrArg FrameReply.freed ((freeFrame_fst _ _).mpr hused)⟩
    exact ((init_freeAt h addr).mp (hreleased k addr hrel)).2

def kernelThenRam : List MemoryRegion :=
  [⟨0x200000, 0x201000, .kernel⟩, ⟨0x201000, 0x203000, .usable⟩]

theorem pageAligned_kernelThenRam : PageAligned kernelThenRam := by
  simp only [PageAligned, kernelThenRam, List.forall_mem_cons]
  decide

/-- Handing out and giving back the frame at `0x201000` is such a history. -/
theorem usable_frames_of_one_frame :
    (∀ k addr, Returned (Pmm.init kernelThenRam) [.allocateFrame, .freeFrame 0x201000] k addr →
      UsableFrame kernelThenRam addr) ∧
    ∀ k addr, Released (Pmm.init kernelThenRam) [.allocateFrame, .freeFrame 0x201000] k addr →
      ∃ i < k, Returned (Pmm.init kernelThenRam) [.allocateFrame, .freeFrame 0x201000] i addr := by
  refine (usable_frames_iff kernelThenRam pageAligned_kernelThenRam _).mp ⟨?_, ?_, trivial⟩
  · intro addr hcall
    cases hcall
  · rintro addr hcall -
    cases hcall
    exact ⟨⟨0x201000, 0x203000, .usable⟩, by decide, rfl, by decide, by decide⟩

/-- The frame of the kernel image is given back, never having been handed out,
and the next allocation returns it. -/
theorem kernel_frame_handed_out :
    PageAligned kernelThenRam ∧
      Returned (Pmm.init kernelThenRam) [.freeFrame 0x200000, .allocateFrame] 1 0x200000 ∧
      ¬ UsableFrame kernelThenRam 0x200000 := by
  refine ⟨pageAligned_kernelThenRam, ⟨rfl, by decide +kernel⟩, ?_⟩
  rintro ⟨region, hregion, husable, hlo, -⟩
  simp only [kernelThenRam, List.mem_cons, List.not_mem_nil, or_false] at hregion
  rcases hregion with rfl | rfl
  · cases husable
  · exact absurd hlo (by decide)

end AuraOS.PhysicalFrames
