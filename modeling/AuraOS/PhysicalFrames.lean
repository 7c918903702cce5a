import Mathlib

/-!
The physical memory manager: a bitmap over the identity-mapped window, one bit
for each 4 KiB frame, set when the frame is in use.  `Pmm.FreeAt` and
`Pmm.UsedAt` speak about physical addresses; the two operations are specified
by their effect on them.
-/

namespace AuraOS.PhysicalFrames

variable {pmm pmm' : Pmm} {word : BitVec 64} {frame addr : Nat}

def pageSize : Nat := 4096
def pmmBase : Nat := 0x200000
def pmmEnd : Nat := 0x20000000
def pmmFrames : Nat := (pmmEnd - pmmBase) / pageSize
def bitmapWords : Nat := (pmmFrames + 63) / 64

attribute [grind =] pageSize pmmBase pmmEnd pmmFrames

/-- The words of the bitmap; those from `bitmapWords` on do not exist in the
source and are never read. -/
structure Pmm where
  bitmap : Nat → BitVec 64

def Pmm.setWord (pmm : Pmm) (wordIdx : Nat) (word : BitVec 64) : Pmm :=
  ⟨fun w => if w = wordIdx then word else pmm.bitmap w⟩

def trailingZerosFrom (x : BitVec 64) : Nat → Nat → Nat
  | 0, bit => bit
  | fuel + 1, bit => if x.getLsbD bit then bit else trailingZerosFrom x fuel (bit + 1)

/-- `u64::trailing_zeros`. -/
def trailingZeros (x : BitVec 64) : Nat :=
  trailingZerosFrom x 64 0

/-- The loop of `alloc_frame` over the remaining words. -/
def Pmm.allocFrom (pmm : Pmm) : Nat → Nat → Option (Nat × Pmm)
  | 0, _ => none
  | fuel + 1, wordIdx =>
    let word := pmm.bitmap wordIdx
    if word ≠ BitVec.allOnes 64 then
      let bit := trailingZeros (~~~ word)
      let frame := wordIdx * 64 + bit
      some (pmmBase + frame * pageSize, pmm.setWord wordIdx (word ||| BitVec.twoPow 64 bit))
    else pmm.allocFrom fuel (wordIdx + 1)

def Pmm.allocFrame (pmm : Pmm) : Option (Nat × Pmm) :=
  pmm.allocFrom bitmapWords 0

def Pmm.freeFrame (pmm : Pmm) (addr : Nat) : Bool × Pmm :=
  if ¬ (pmmBase ≤ addr ∧ addr < pmmEnd) ∨ addr % pageSize ≠ 0 then (false, pmm)
  else
    let frame := (addr - pmmBase) / pageSize
    let mask := BitVec.twoPow 64 (frame % 64)
    if pmm.bitmap (frame / 64) &&& mask = 0 then (false, pmm)
    else (true, pmm.setWord (frame / 64) (pmm.bitmap (frame / 64) &&& ~~~ mask))

def frameAddr (frame : Nat) : Nat :=
  pmmBase + frame * pageSize

attribute [grind =] frameAddr

def Pmm.isUsed (pmm : Pmm) (frame : Nat) : Bool :=
  (pmm.bitmap (frame / 64)).getLsbD (frame % 64)

def Pmm.FreeAt (pmm : Pmm) (addr : Nat) : Prop :=
  ∃ frame < pmmFrames, addr = frameAddr frame ∧ pmm.isUsed frame = false

def Pmm.UsedAt (pmm : Pmm) (addr : Nat) : Prop :=
  ∃ frame < pmmFrames, addr = frameAddr frame ∧ pmm.isUsed frame = true

def Pmm.freeCount (pmm : Pmm) : Nat :=
  ((Finset.range pmmFrames).filter fun frame => pmm.isUsed frame = false).card

theorem le_freeCount {n : Nat} (hn : n ≤ pmmFrames)
    (hfree : ∀ frame < n, pmm.isUsed frame = false) :
    n ≤ pmm.freeCount := by
  have hsub : Finset.range n ⊆
      (Finset.range pmmFrames).filter fun frame => pmm.isUsed frame = false := by
    intro frame hframe
    rw [Finset.mem_range] at hframe
    rw [Finset.mem_filter, Finset.mem_range]
    exact ⟨Nat.lt_of_lt_of_le hframe hn, hfree frame hframe⟩
  have hcard := Finset.card_le_card hsub
  rwa [Finset.card_range] at hcard

theorem freeCount_le (pmm : Pmm) : pmm.freeCount ≤ pmmFrames := by
  have hcard := Finset.card_filter_le (Finset.range pmmFrames) fun frame =>
    pmm.isUsed frame = false
  rwa [Finset.card_range] at hcard

theorem frameAddr_inj {i j : Nat} (h : frameAddr i = frameAddr j) : i = j := by
  grind

theorem trailingZerosFrom_spec (x : BitVec 64) (fuel bit : Nat)
    (h : ∃ i, bit ≤ i ∧ i < bit + fuel ∧ x.getLsbD i = true) :
    x.getLsbD (trailingZerosFrom x fuel bit) = true ∧
      trailingZerosFrom x fuel bit < bit + fuel ∧
      ∀ i, bit ≤ i → i < trailingZerosFrom x fuel bit → x.getLsbD i = false := by
  induction fuel generalizing bit with
  | zero =>
    omega
  | succ fuel ih =>
    simp only [trailingZerosFrom]
    split
    · rename_i hbit
      exact ⟨hbit, by omega, fun i hlo hhi => by omega⟩
    · rename_i hbit
      obtain ⟨i, hlo, hhi, hi⟩ := h
      have hne : bit ≠ i := by
        rintro rfl
        exact hbit hi
      obtain ⟨hset, hlt, hlow⟩ := ih (bit + 1) ⟨i, by omega, by omega, hi⟩
      refine ⟨hset, by omega, ?_⟩
      intro j hjlo hjhi
      by_cases hj : j = bit
      · subst hj
        simpa using hbit
      · exact hlow j (by omega) hjhi

theorem exists_clear_bit (h : word ≠ BitVec.allOnes 64) : ∃ i, i < 64 ∧ word.getLsbD i = false := by
  by_contra hall
  push Not at hall
  refine h (BitVec.eq_of_getLsbD_eq fun i hi => ?_)
  rw [BitVec.getLsbD_allOnes, decide_eq_true hi]
  simpa only [Bool.not_eq_false] using hall i hi

theorem trailingZeros_not_spec (h : word ≠ BitVec.allOnes 64) :
    trailingZeros (~~~ word) < 64 ∧ word.getLsbD (trailingZeros (~~~ word)) = false ∧
      ∀ i < trailingZeros (~~~ word), word.getLsbD i = true := by
  obtain ⟨i, hi, hclear⟩ := exists_clear_bit h
  have hnot : ∀ j < 64, (~~~ word).getLsbD j = !word.getLsbD j := by
    intro j hj
    rw [BitVec.getLsbD_not, decide_eq_true hj, Bool.true_and]
  obtain ⟨hset, hlt, hlow⟩ := trailingZerosFrom_spec (~~~ word) 64 0
    ⟨i, by omega, by omega, by rw [hnot i hi, hclear]; rfl⟩
  have hlt' : trailingZeros (~~~ word) < 64 := by
    rw [trailingZeros]
    omega
  refine ⟨hlt', ?_, ?_⟩
  · have hbit := hnot _ hlt'
    rw [trailingZeros] at hbit ⊢
    rw [hset] at hbit
    simpa using hbit.symm
  · intro j hj
    have hclear' := hlow j (by omega) hj
    rw [hnot j (by omega)] at hclear'
    simpa using hclear'

theorem isUsed_setWord (j : Nat) :
    (pmm.setWord frame word).isUsed j =
      if j / 64 = frame then word.getLsbD (j % 64) else pmm.isUsed j := by
  simp only [Pmm.isUsed, Pmm.setWord]
  split <;> rfl

theorem isUsed_clearBit (pmm : Pmm) (frame j : Nat) :
    (pmm.setWord (frame / 64)
        (pmm.bitmap (frame / 64) &&& ~~~ BitVec.twoPow 64 (frame % 64))).isUsed j =
      (pmm.isUsed j && decide (j ≠ frame)) := by
  have hbit : frame % 64 < 64 := Nat.mod_lt _ (by decide)
  rw [isUsed_setWord]
  split
  · rename_i hword
    have hiff : frame % 64 = j % 64 ↔ j = frame := by omega
    rw [BitVec.getLsbD_and, BitVec.getLsbD_not, BitVec.getLsbD_twoPow, ← hword]
    simp [Pmm.isUsed, hbit, hiff, Nat.mod_lt]
  · rename_i hword
    have hne : j ≠ frame := by
      rintro rfl
      exact hword rfl
    simp [hne]

theorem allocFrom_spec (pmm : Pmm) (fuel wordIdx : Nat) :
    (pmm.allocFrom fuel wordIdx = none ∧
      ∀ j, wordIdx * 64 ≤ j → j < (wordIdx + fuel) * 64 → pmm.isUsed j = true) ∨
    ∃ frame pmm', pmm.allocFrom fuel wordIdx = some (frameAddr frame, pmm') ∧
      frame < (wordIdx + fuel) * 64 ∧ pmm.isUsed frame = false ∧
      (∀ j, wordIdx * 64 ≤ j → j < frame → pmm.isUsed j = true) ∧
      ∀ j, pmm'.isUsed j = (pmm.isUsed j || decide (j = frame)) := by
  induction fuel generalizing wordIdx with
  | zero => exact .inl ⟨rfl, fun j hlo hhi => by omega⟩
  | succ fuel ih =>
    by_cases hfull : pmm.bitmap wordIdx = BitVec.allOnes 64
    · have hstep : pmm.allocFrom (fuel + 1) wordIdx = pmm.allocFrom fuel (wordIdx + 1) := by
        simp only [Pmm.allocFrom, hfull, ne_eq, not_true_eq_false, if_false]
      have hused : ∀ j, wordIdx * 64 ≤ j → j < (wordIdx + 1) * 64 → pmm.isUsed j = true := by
        intro j hlo hhi
        have hword : j / 64 = wordIdx := by omega
        rw [Pmm.isUsed, hword, hfull, BitVec.getLsbD_allOnes]
        exact decide_eq_true (Nat.mod_lt _ (by decide))
      rw [hstep]
      rcases ih (wordIdx + 1) with ⟨hnone, hrest⟩ | ⟨frame, pmm', hsome, hlt, hclear, hlow, heff⟩
      · refine .inl ⟨hnone, ?_⟩
        intro j hlo hhi
        by_cases hj : j < (wordIdx + 1) * 64
        · exact hused j hlo hj
        · exact hrest j (by omega) (by omega)
      · refine .inr ⟨frame, pmm', hsome, by omega, hclear, ?_, heff⟩
        intro j hlo hhi
        by_cases hj : j < (wordIdx + 1) * 64
        · exact hused j hlo hj
        · exact hlow j (by omega) hhi
    · obtain ⟨hbit, hclear, hlow⟩ := trailingZeros_not_spec hfull
      right
      refine ⟨wordIdx * 64 + trailingZeros (~~~ pmm.bitmap wordIdx), _, by
        simp only [Pmm.allocFrom, ne_eq, hfull, not_false_eq_true, if_true, frameAddr]; rfl,
        by omega, ?_, ?_, ?_⟩
      · rw [Pmm.isUsed]
        have hdiv : (wordIdx * 64 + trailingZeros (~~~ pmm.bitmap wordIdx)) / 64 = wordIdx := by
          omega
        have hmod : (wordIdx * 64 + trailingZeros (~~~ pmm.bitmap wordIdx)) % 64 =
            trailingZeros (~~~ pmm.bitmap wordIdx) := by omega
        rw [hdiv, hmod, hclear]
      · intro j hlo hhi
        have hdiv : j / 64 = wordIdx := by omega
        rw [Pmm.isUsed, hdiv]
        exact hlow (j % 64) (by omega)
      · intro j
        rw [isUsed_setWord]
        by_cases hword : j / 64 = wordIdx
        · rw [if_pos hword, BitVec.getLsbD_or, BitVec.getLsbD_twoPow, Pmm.isUsed, hword,
            decide_eq_true hbit, Bool.true_and]
          congr 1
          exact decide_eq_decide.mpr (by omega)
        · have hne : j ≠ wordIdx * 64 + trailingZeros (~~~ pmm.bitmap wordIdx) := by omega
          simp [if_neg hword, hne]

theorem allocFrame_eq_none (h : pmm.allocFrame = none) (addr : Nat) : ¬ pmm.FreeAt addr := by
  rintro ⟨frame, hframe, -, hclear⟩
  rcases allocFrom_spec pmm bitmapWords 0 with ⟨-, hused⟩ | ⟨_, _, hsome, -⟩
  · have hbound : frame < (0 + bitmapWords) * 64 := by
      simp only [bitmapWords, pmmFrames, pmmEnd, pmmBase, pageSize] at *
      omega
    rw [hused frame (by omega) hbound] at hclear
    cases hclear
  · rw [Pmm.allocFrame, hsome] at h
    cases h

theorem freeCount_of_marked (hframe : frame < pmmFrames) (hclear : pmm.isUsed frame = false)
    (heff : ∀ j, pmm'.isUsed j = (pmm.isUsed j || decide (j = frame))) :
    pmm.freeCount = pmm'.freeCount + 1 := by
  have hsplit : (Finset.range pmmFrames).filter (fun j => pmm.isUsed j = false) =
      insert frame ((Finset.range pmmFrames).filter fun j => pmm'.isUsed j = false) := by
    ext j
    simp only [Finset.mem_filter, Finset.mem_range, Finset.mem_insert, heff,
      Bool.or_eq_false_iff, decide_eq_false_iff_not]
    constructor
    · rintro ⟨hj, hfree⟩
      by_cases hjf : j = frame
      · exact .inl hjf
      · exact .inr ⟨hj, hfree, hjf⟩
    · rintro (rfl | ⟨hj, hfree, -⟩)
      · exact ⟨hframe, hclear⟩
      · exact ⟨hj, hfree⟩
  simp only [Pmm.freeCount]
  rw [hsplit, Finset.card_insert_of_notMem (by simp [heff])]

structure Allocated (pmm pmm' : Pmm) (addr : Nat) : Prop where
  free : pmm.FreeAt addr
  free_iff : ∀ a, pmm'.FreeAt a ↔ pmm.FreeAt a ∧ a ≠ addr
  used_iff : ∀ a, pmm'.UsedAt a ↔ pmm.UsedAt a ∨ a = addr
  count : pmm.freeCount = pmm'.freeCount + 1

theorem allocFrame_spec (h : pmm.allocFrame = some (addr, pmm')) : Allocated pmm pmm' addr := by
  rcases allocFrom_spec pmm bitmapWords 0 with
    ⟨hnone, -⟩ | ⟨frame, pmm₁, hsome, hlt, hclear, -, heff⟩
  · rw [Pmm.allocFrame, hnone] at h
    cases h
  rw [Pmm.allocFrame, hsome] at h
  cases h
  have hframe : frame < pmmFrames := by
    simp only [bitmapWords, pmmFrames, pmmEnd, pmmBase, pageSize] at *
    omega
  refine ⟨⟨frame, hframe, rfl, hclear⟩, ?_, ?_, ?_⟩
  · intro a
    constructor
    · rintro ⟨j, hj, rfl, hfree⟩
      rw [heff] at hfree
      simp only [Bool.or_eq_false_iff, decide_eq_false_iff_not] at hfree
      exact ⟨⟨j, hj, rfl, hfree.1⟩, fun heq => hfree.2 (frameAddr_inj heq)⟩
    · rintro ⟨⟨j, hj, rfl, hfree⟩, hne⟩
      refine ⟨j, hj, rfl, ?_⟩
      have hjf : j ≠ frame := fun heq => hne (heq ▸ rfl)
      simp [heff, hfree, hjf]
  · intro a
    constructor
    · rintro ⟨j, hj, rfl, hused⟩
      rw [heff] at hused
      rcases Bool.or_eq_true_iff.mp hused with hused | heq
      · exact .inl ⟨j, hj, rfl, hused⟩
      · exact .inr (by rw [of_decide_eq_true heq])
    · rintro (⟨j, hj, rfl, hused⟩ | rfl)
      · exact ⟨j, hj, rfl, by simp [heff, hused]⟩
      · exact ⟨frame, hframe, rfl, by simp [heff]⟩
  · exact freeCount_of_marked hframe hclear heff

/-- What giving a frame back does, successful or not: the address is in use no
longer, and it is free now if it was in use. -/
structure Freed (pmm pmm' : Pmm) (addr : Nat) : Prop where
  free_iff : ∀ a, pmm'.FreeAt a ↔ pmm.FreeAt a ∨ a = addr ∧ pmm.UsedAt addr
  used_iff : ∀ a, pmm'.UsedAt a ↔ pmm.UsedAt a ∧ a ≠ addr

theorem frame_of_addr (h : pmmBase ≤ addr ∧ addr < pmmEnd) (halign : addr % pageSize = 0) :
    (addr - pmmBase) / pageSize < pmmFrames ∧ addr = frameAddr ((addr - pmmBase) / pageSize) := by
  simp only [frameAddr, pmmFrames, pmmEnd, pmmBase, pageSize] at *
  omega

theorem frameAddr_window (h : frame < pmmFrames) :
    (pmmBase ≤ frameAddr frame ∧ frameAddr frame < pmmEnd) ∧ frameAddr frame % pageSize = 0 := by
  grind

theorem frameAt_iff (P : Nat → Prop) (addr : Nat) :
    (∃ frame < pmmFrames, addr = frameAddr frame ∧ P frame) ↔
      (pmmBase ≤ addr ∧ addr < pmmEnd) ∧ addr % pageSize = 0 ∧ P ((addr - pmmBase) / pageSize) := by
  constructor
  · rintro ⟨frame, hframe, rfl, h⟩
    have hindex : (frameAddr frame - pmmBase) / pageSize = frame := by
      grind
    exact ⟨(frameAddr_window hframe).1, (frameAddr_window hframe).2, by rwa [hindex]⟩
  · rintro ⟨hwindow, halign, h⟩
    obtain ⟨hframe, haddr⟩ := frame_of_addr hwindow halign
    exact ⟨_, hframe, haddr, h⟩

theorem and_twoPow_eq_zero_iff {bit : Nat} (hbit : bit < 64) :
    word &&& BitVec.twoPow 64 bit = 0 ↔ word.getLsbD bit = false := by
  rw [BitVec.and_twoPow]
  cases hget : word.getLsbD bit with
  | false => simp
  | true =>
    simp only [if_true, Bool.true_eq_false, iff_false]
    intro hzero
    have := congrArg (fun w => BitVec.getLsbD w bit) hzero
    simp [hbit] at this

theorem freeFrame_cases (pmm : Pmm) (addr : Nat) :
    (¬ pmm.UsedAt addr ∧ (pmm.freeFrame addr).2 = pmm) ∨
    ∃ frame < pmmFrames, addr = frameAddr frame ∧ pmm.isUsed frame = true ∧
      ∀ j, (pmm.freeFrame addr).2.isUsed j = (pmm.isUsed j && decide (j ≠ frame)) := by
  by_cases hwindow : (pmmBase ≤ addr ∧ addr < pmmEnd) ∧ addr % pageSize = 0
  · obtain ⟨hframe, haddr⟩ := frame_of_addr hwindow.1 hwindow.2
    have hguard : ¬ (¬ (pmmBase ≤ addr ∧ addr < pmmEnd) ∨ addr % pageSize ≠ 0) := by
      simp only [not_or, not_not]
      exact hwindow
    have hbit : (addr - pmmBase) / pageSize % 64 < 64 := Nat.mod_lt _ (by decide)
    simp only [Pmm.freeFrame, if_neg hguard, and_twoPow_eq_zero_iff hbit]
    by_cases hused : pmm.isUsed ((addr - pmmBase) / pageSize) = true
    · refine .inr ⟨_, hframe, haddr, hused, ?_⟩
      rw [Pmm.isUsed] at hused
      intro j
      rw [if_neg (by simp [hused]), isUsed_clearBit]
    · have hclear : (pmm.bitmap ((addr - pmmBase) / pageSize / 64)).getLsbD
          ((addr - pmmBase) / pageSize % 64) = false := by simpa [Pmm.isUsed] using hused
      refine .inl ⟨?_, by rw [if_pos hclear]⟩
      rintro ⟨frame, -, haddr', hused'⟩
      exact hused (frameAddr_inj (haddr'.symm.trans haddr) ▸ hused')
  · refine .inl ⟨?_, ?_⟩
    · rintro ⟨frame, hframe, rfl, -⟩
      exact hwindow (frameAddr_window hframe)
    · have hguard : ¬ (pmmBase ≤ addr ∧ addr < pmmEnd) ∨ addr % pageSize ≠ 0 := by
        simpa only [not_and_or] using hwindow
      rw [Pmm.freeFrame, if_pos hguard]

theorem freeFrame_spec (pmm : Pmm) (addr : Nat) : Freed pmm (pmm.freeFrame addr).2 addr := by
  rcases freeFrame_cases pmm addr with ⟨hunused, hsame⟩ | ⟨frame, hframe, rfl, hused, heff⟩
  · rw [hsame]
    refine ⟨fun a => by simp [hunused], fun a => ?_⟩
    refine ⟨fun ha => ⟨ha, ?_⟩, And.left⟩
    rintro rfl
    exact hunused ha
  · refine ⟨?_, ?_⟩
    · intro a
      constructor
      · rintro ⟨j, hj, rfl, hfree⟩
        rw [heff] at hfree
        by_cases hjf : j = frame
        · subst hjf
          exact .inr ⟨rfl, j, hj, rfl, hused⟩
        · exact .inl ⟨j, hj, rfl, by simpa [hjf] using hfree⟩
      · rintro (⟨j, hj, rfl, hfree⟩ | ⟨rfl, -⟩)
        · exact ⟨j, hj, rfl, by simp [heff, hfree]⟩
        · exact ⟨frame, hframe, rfl, by simp [heff]⟩
    · intro a
      constructor
      · rintro ⟨j, hj, rfl, husedj⟩
        rw [heff] at husedj
        simp only [Bool.and_eq_true, decide_eq_true_eq] at husedj
        exact ⟨⟨j, hj, rfl, husedj.1⟩, fun heq => husedj.2 (frameAddr_inj heq)⟩
      · rintro ⟨⟨j, hj, rfl, husedj⟩, hne⟩
        have hjf : j ≠ frame := fun heq => hne (heq ▸ rfl)
        exact ⟨j, hj, rfl, by simp [heff, husedj, hjf]⟩

theorem Pmm.UsedAt.not_freeAt (h : pmm.UsedAt addr) : ¬ pmm.FreeAt addr := by
  obtain ⟨i, -, rfl, hused⟩ := h
  rintro ⟨j, -, heq, hfree⟩
  rw [frameAddr_inj heq, hfree] at hused
  cases hused

end AuraOS.PhysicalFrames
