import AuraOS.PhysicalFrames

/-!
The frame allocator over whole histories: sequences of `allocate_frame` and
`free_frame` calls from an arbitrary bitmap.  One call is specified by
`FrameCallSpec`; a frame that was handed out stays in use until the call that
gives it back.
-/

namespace AuraOS.PhysicalFrames

variable {pmm : Pmm} {addr : Nat} {call : FrameCall} {calls : List FrameCall}

/-- `u64::count_ones`. -/
def countOnes (x : BitVec 64) : Nat :=
  (List.range 64).countP fun i => x.getLsbD i

/-- The loop of `free_memory_locked` over the first words. -/
def Pmm.freeBits (pmm : Pmm) (words : Nat) : Nat :=
  (List.range words).foldl (fun free wordIdx => free + countOnes (~~~ pmm.bitmap wordIdx)) 0

def Pmm.freeMemory (pmm : Pmm) : Nat :=
  pmm.freeBits bitmapWords * pageSize

theorem countOnes_not (pmm : Pmm) (wordIdx : Nat) :
    countOnes (~~~ pmm.bitmap wordIdx) =
      Nat.count (fun bit => pmm.isUsed (wordIdx * 64 + bit) = false) 64 := by
  refine List.countP_congr fun bit hbit => ?_
  have hlt : bit < 64 := List.mem_range.mp hbit
  have hdiv : (wordIdx * 64 + bit) / 64 = wordIdx := by omega
  have hmod : (wordIdx * 64 + bit) % 64 = bit := by omega
  simp [Pmm.isUsed, hdiv, hmod, hlt]

theorem freeBits_eq_count (pmm : Pmm) (words : Nat) :
    pmm.freeBits words = Nat.count (fun frame => pmm.isUsed frame = false) (words * 64) := by
  induction words with
  | zero => rfl
  | succ words ih =>
    have hstep : pmm.freeBits (words + 1) =
        pmm.freeBits words + countOnes (~~~ pmm.bitmap words) := by
      simp only [Pmm.freeBits, List.range_succ, List.foldl_append, List.foldl_cons, List.foldl_nil]
    rw [hstep, ih, countOnes_not, Nat.succ_mul, Nat.count_add]

theorem freeMemory_eq (pmm : Pmm) : pmm.freeMemory = pmm.freeCount * pageSize := by
  have hwords : bitmapWords * 64 = pmmFrames := by decide
  rw [Pmm.freeMemory, freeBits_eq_count, hwords, Nat.count_eq_card_filter_range, Pmm.freeCount]

theorem allocFrame_lowest {pmm' : Pmm} (h : pmm.allocFrame = some (addr, pmm')) {a : Nat}
    (ha : pmm.FreeAt a) : addr ≤ a := by
  rcases allocFrom_spec pmm bitmapWords 0 with ⟨hnone, -⟩ | ⟨frame, pmm₁, hsome, -, -, hlow, -⟩
  · rw [Pmm.allocFrame, hnone] at h
    cases h
  rw [Pmm.allocFrame, hsome] at h
  cases h
  obtain ⟨j, -, rfl, hfree⟩ := ha
  have hle : frame ≤ j := by
    by_contra hlt
    rw [hlow j (by omega) (by omega)] at hfree
    cases hfree
  exact Nat.add_le_add_left (Nat.mul_le_mul_right _ hle) _

theorem freeAt_window (h : pmm.FreeAt addr) :
    (pmmBase ≤ addr ∧ addr < pmmEnd) ∧ addr % pageSize = 0 := by
  obtain ⟨frame, hframe, rfl, -⟩ := h
  exact frameAddr_window hframe

theorem usedAt_iff (pmm : Pmm) (addr : Nat) :
    pmm.UsedAt addr ↔ (pmmBase ≤ addr ∧ addr < pmmEnd) ∧ addr % pageSize = 0 ∧
      pmm.isUsed ((addr - pmmBase) / pageSize) = true :=
  frameAt_iff (pmm.isUsed · = true) addr

theorem freeFrame_fst (pmm : Pmm) (addr : Nat) :
    (pmm.freeFrame addr).1 = true ↔ pmm.UsedAt addr := by
  rw [usedAt_iff]
  by_cases hguard : ¬ (pmmBase ≤ addr ∧ addr < pmmEnd) ∨ addr % pageSize ≠ 0
  · simp only [Pmm.freeFrame, if_pos hguard, Bool.false_eq_true, false_iff]
    rintro ⟨hwindow, halign, -⟩
    exact hguard.elim (fun h => h hwindow) fun h => h halign
  · have hbit : (addr - pmmBase) / pageSize % 64 < 64 := Nat.mod_lt _ (by decide)
    simp only [Pmm.freeFrame, if_neg hguard, and_twoPow_eq_zero_iff hbit, Pmm.isUsed]
    split <;> simp_all

theorem freeFrame_count (h : pmm.UsedAt addr) :
    (pmm.freeFrame addr).2.freeCount = pmm.freeCount + 1 := by
  rcases freeFrame_cases pmm addr with ⟨hunused, -⟩ | ⟨frame, hframe, -, hused, heff⟩
  · exact absurd h hunused
  · -- read backwards, giving the frame back is marking it
    refine freeCount_of_marked hframe (by simp [heff]) fun j => ?_
    by_cases hj : j = frame
    · simp [hj, hused]
    · simp [heff, hj]

theorem freeFrame_refused (h : ¬ pmm.UsedAt addr) : (pmm.freeFrame addr).2 = pmm := by
  rcases freeFrame_cases pmm addr with ⟨-, hsame⟩ | ⟨frame, hframe, haddr, hused, -⟩
  · exact hsame
  · exact absurd ⟨frame, hframe, haddr, hused⟩ h

inductive FrameCall where
  | allocateFrame
  | freeFrame (addr : Nat)
deriving DecidableEq, Repr

inductive FrameReply where
  | frame (addr : Option Nat)
  | freed (done : Bool)
deriving DecidableEq, Repr

def Pmm.perform (pmm : Pmm) : FrameCall → FrameReply × Pmm
  | .allocateFrame =>
    match pmm.allocFrame with
    | some (addr, pmm') => (.frame (some addr), pmm')
    | none => (.frame none, pmm)
  | .freeFrame addr => (.freed (pmm.freeFrame addr).1, (pmm.freeFrame addr).2)

def Pmm.after (pmm : Pmm) (calls : List FrameCall) : Pmm :=
  calls.foldl (fun pmm call => (pmm.perform call).2) pmm

theorem after_concat (pmm : Pmm) (calls : List FrameCall) (call : FrameCall) :
    pmm.after (calls ++ [call]) = ((pmm.after calls).perform call).2 := by
  simp only [Pmm.after, List.foldl_append, List.foldl_cons, List.foldl_nil]

def FrameCallSpec (pmm : Pmm) : FrameCall → FrameReply × Pmm → Prop
  | .allocateFrame, (.frame (some addr), pmm') =>
    pmm.FreeAt addr ∧ (∀ a, pmm.FreeAt a → addr ≤ a) ∧
      (pmmBase ≤ addr ∧ addr < pmmEnd) ∧ addr % pageSize = 0 ∧
      pmm'.freeMemory + 4096 = pmm.freeMemory
  | .allocateFrame, (.frame none, pmm') => (∀ a, ¬ pmm.FreeAt a) ∧ pmm' = pmm
  | .freeFrame addr, (.freed done, pmm') =>
    (done = true ↔ (pmmBase ≤ addr ∧ addr < pmmEnd) ∧ addr % pageSize = 0 ∧
      pmm.isUsed ((addr - pmmBase) / pageSize) = true) ∧
    if done then pmm'.freeMemory = pmm.freeMemory + 4096 else pmm' = pmm
  | _, _ => False

theorem perform_spec (pmm : Pmm) (call : FrameCall) :
    FrameCallSpec pmm call (pmm.perform call) := by
  cases call with
  | allocateFrame =>
    cases halloc : pmm.allocFrame with
    | none =>
      simp only [Pmm.perform, halloc]
      exact ⟨allocFrame_eq_none halloc, rfl⟩
    | some found =>
      have hspec := allocFrame_spec halloc
      have hwindow := freeAt_window hspec.free
      simp only [Pmm.perform, halloc]
      refine ⟨hspec.free, fun a => allocFrame_lowest halloc, hwindow.1, hwindow.2, ?_⟩
      rw [freeMemory_eq, freeMemory_eq, hspec.count, Nat.succ_mul, pageSize]
  | freeFrame addr =>
    refine ⟨(freeFrame_fst pmm addr).trans (usedAt_iff pmm addr), ?_⟩
    split
    · rename_i hdone
      rw [freeMemory_eq, freeMemory_eq, freeFrame_count ((freeFrame_fst pmm addr).mp hdone),
        Nat.succ_mul, pageSize]
    · rename_i hdone
      exact freeFrame_refused fun hused => hdone ((freeFrame_fst pmm addr).mpr hused)

/-- Call number `k` of the history hands out the frame at `addr`. -/
def Returned (pmm : Pmm) (calls : List FrameCall) (k addr : Nat) : Prop :=
  calls[k]? = some .allocateFrame ∧
    ((pmm.after (calls.take k)).perform .allocateFrame).1 = .frame (some addr)

/-- Call number `k` of the history gives the frame at `addr` back. -/
def Released (pmm : Pmm) (calls : List FrameCall) (k addr : Nat) : Prop :=
  calls[k]? = some (.freeFrame addr) ∧
    ((pmm.after (calls.take k)).perform (.freeFrame addr)).1 = .freed true

theorem perform_frame (h : (pmm.perform .allocateFrame).1 = .frame (some addr)) :
    Allocated pmm (pmm.perform .allocateFrame).2 addr := by
  cases halloc : pmm.allocFrame with
  | none => simp [Pmm.perform, halloc] at h
  | some found =>
    simp only [Pmm.perform, halloc, FrameReply.frame.injEq, Option.some.injEq] at h ⊢
    subst h
    exact allocFrame_spec halloc

theorem perform_usedAt (h : pmm.UsedAt addr) (hcall : call ≠ .freeFrame addr) :
    (pmm.perform call).2.UsedAt addr := by
  cases call with
  | allocateFrame =>
    cases halloc : pmm.allocFrame with
    | none => simpa only [Pmm.perform, halloc] using h
    | some found =>
      simp only [Pmm.perform, halloc]
      exact ((allocFrame_spec halloc).used_iff addr).mpr (.inl h)
  | freeFrame other =>
    refine ((freeFrame_spec pmm other).used_iff addr).mpr ⟨h, ?_⟩
    rintro rfl
    exact hcall rfl

theorem after_take_succ {k : Nat} (h : calls[k]? = some call) :
    pmm.after (calls.take (k + 1)) = ((pmm.after (calls.take k)).perform call).2 := by
  rw [List.take_add_one, h, Option.toList_some, after_concat]

theorem usedAt_of_not_released {i : Nat} (hreturned : Returned pmm calls i addr) (n : Nat)
    (hn : i + 1 + n ≤ calls.length)
    (hkept : ∀ k, i < k → k < i + 1 + n → ¬ Released pmm calls k addr) :
    (pmm.after (calls.take (i + 1 + n))).UsedAt addr := by
  induction n with
  | zero =>
    rw [Nat.add_zero, after_take_succ hreturned.1]
    exact ((perform_frame hreturned.2).used_iff addr).mpr (.inr rfl)
  | succ n ih =>
    have hused := ih (by omega) fun k hlo hhi => hkept k hlo (by omega)
    obtain ⟨call, hcall⟩ : ∃ call, calls[i + 1 + n]? = some call :=
      ⟨_, List.getElem?_eq_getElem (by omega)⟩
    rw [← Nat.add_assoc, after_take_succ hcall]
    refine perform_usedAt hused ?_
    rintro rfl
    refine hkept (i + 1 + n) (by omega) (by omega) ⟨hcall, ?_⟩
    exact congrArg FrameReply.freed ((freeFrame_fst _ _).mpr hused)

/-- Every call of a history answers as specified in the state it meets, and a
frame is handed out a second time only after it has been given back. -/
theorem frames_exclusive_and_accounted (pmm : Pmm) (calls : List FrameCall) :
    (∀ k call, calls[k]? = some call →
      FrameCallSpec (pmm.after (calls.take k)) call ((pmm.after (calls.take k)).perform call)) ∧
    ∀ i j addr, i < j → Returned pmm calls i addr → Returned pmm calls j addr →
      ∃ k, i < k ∧ k < j ∧ Released pmm calls k addr := by
  refine ⟨fun k call _ => perform_spec _ call, ?_⟩
  intro i j addr hij hfirst hsecond
  by_contra hnone
  push Not at hnone
  have hj : j < calls.length := (List.getElem?_eq_some_iff.mp hsecond.1).1
  have hused := usedAt_of_not_released hfirst (j - (i + 1)) (by omega)
    fun k hlo hhi => hnone k hlo (by omega)
  rw [show i + 1 + (j - (i + 1)) = j by omega] at hused
  exact hused.not_freeAt (perform_frame hsecond.2).free

end AuraOS.PhysicalFrames
