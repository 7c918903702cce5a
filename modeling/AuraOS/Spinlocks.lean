import AuraOS.GuardedRuns

/-!
The interrupt flag of one CPU under its spinlocks.  Every guard remembers the flag that it
found, and restores it when it is dropped.
-/

namespace AuraOS.Spinlocks

open GuardedRuns

variable {L : Type} [DecidableEq L]

structure SpinlockGuard (L : Type) where
  spinlock : L
  interruptsEnabled : Bool

structure Cpu (L : Type) where
  interrupts : Bool
  locked : L → Bool
  guards : List (SpinlockGuard L)

def Cpu.pushfqAndCli (cpu : Cpu L) : Bool × Cpu L :=
  (cpu.interrupts, { cpu with interrupts := false })

def Cpu.restoreInterrupts (cpu : Cpu L) (enabled : Bool) : Cpu L :=
  if enabled then { cpu with interrupts := true } else cpu

/-- `self.lock.swap(true)`. -/
def Cpu.swap (cpu : Cpu L) (l : L) : Bool × Cpu L :=
  (cpu.locked l, { cpu with locked := Function.update cpu.locked l true })

def Cpu.lock (cpu : Cpu L) (l : L) : Cpu L :=
  let (interruptsEnabled, cpu) := cpu.pushfqAndCli
  let (busy, cpu) := cpu.swap l
  -- A call that finds the lock taken does not return yet.
  if busy then cpu else { cpu with guards := cpu.guards ++ [⟨l, interruptsEnabled⟩] }

def Cpu.tryLock (cpu : Cpu L) (l : L) : Cpu L :=
  let (interruptsEnabled, cpu) := cpu.pushfqAndCli
  let (busy, cpu) := cpu.swap l
  if !busy then { cpu with guards := cpu.guards ++ [⟨l, interruptsEnabled⟩] }
  else cpu.restoreInterrupts interruptsEnabled

def Cpu.dropGuard (cpu : Cpu L) (i : Nat) : Cpu L :=
  match cpu.guards[i]? with
  | none => cpu
  | some guard =>
    Cpu.restoreInterrupts
      { cpu with
        locked := Function.update cpu.locked guard.spinlock false
        guards := cpu.guards.eraseIdx i } guard.interruptsEnabled

inductive Op (L : Type) where
  | lock (l : L)
  | tryLock (l : L)
  | dropGuard (i : Nat)
  | others (locked : L → Bool)

def Cpu.step (cpu : Cpu L) : Op L → Cpu L
  | .lock l => cpu.lock l
  | .tryLock l => cpu.tryLock l
  | .dropGuard i => cpu.dropGuard i
  | .others locked => { cpu with locked }

def Cpu.Returns (cpu : Cpu L) : Op L → Prop
  | .lock l => cpu.locked l = false
  | .dropGuard i => i < cpu.guards.length
  | _ => True

def Cpu.Orderly (cpu : Cpu L) : Op L → Prop
  | .dropGuard i => ∀ guard, cpu.guards[i]? = some guard → guard.interruptsEnabled = true →
      cpu.guards.length = 1
  | _ => True

/-- Interrupts are disabled under a guard, and without guards as they were at first. -/
def Masked (flag : Bool) (cpu : Cpu L) : Prop :=
  (cpu.guards ≠ [] → cpu.interrupts = false) ∧ (cpu.guards = [] → cpu.interrupts = flag)

structure Remembered (flag : Bool) (cpu : Cpu L) : Prop where
  masked : Masked flag cpu
  count : cpu.guards ≠ [] → cpu.guards.countP (·.interruptsEnabled) = flag.toNat

section Steps

variable {flag : Bool} {cpu : Cpu L}

omit [DecidableEq L] in
theorem Remembered.acquire (h : Remembered flag cpu) (l : L) (locked : L → Bool) :
    Remembered flag ⟨false, locked, cpu.guards ++ [⟨l, cpu.interrupts⟩]⟩ := by
  refine ⟨⟨fun _ => rfl, fun hnil => by simp at hnil⟩, fun _ => ?_⟩
  rw [List.countP_append, List.countP_singleton]
  by_cases hguards : cpu.guards = []
  · rw [hguards, h.masked.2 hguards]
    cases flag <;> rfl
  · rw [h.count hguards, h.masked.1 hguards]
    rfl

omit [DecidableEq L] in
theorem restoreInterrupts_eq (locked : L → Bool) (guards : List (SpinlockGuard L))
    (enabled : Bool) :
    Cpu.restoreInterrupts ⟨false, locked, guards⟩ enabled = ⟨enabled, locked, guards⟩ := by
  cases enabled <;> rfl

theorem dropGuard_eq {i : Nat} {guard : SpinlockGuard L} (hguard : cpu.guards[i]? = some guard)
    (hoff : cpu.interrupts = false) :
    cpu.dropGuard i = ⟨guard.interruptsEnabled,
      Function.update cpu.locked guard.spinlock false, cpu.guards.eraseIdx i⟩ := by
  simp only [Cpu.dropGuard, hguard, hoff, restoreInterrupts_eq]

theorem Remembered.dropGuard (h : Remembered flag cpu) {i : Nat} (hi : i < cpu.guards.length)
    (horderly : cpu.Orderly (.dropGuard i)) : Remembered flag (cpu.dropGuard i) := by
  have hguards : cpu.guards ≠ [] := List.ne_nil_of_length_pos (by omega)
  have hguard := List.getElem?_eq_getElem hi
  rw [dropGuard_eq hguard (h.masked.1 hguards)]
  -- The guards that stay remember what all guards do, without the one that is dropped.
  have hcount : cpu.guards[i].interruptsEnabled.toNat +
      (cpu.guards.eraseIdx i).countP (·.interruptsEnabled) = flag.toNat := by
    have hperm := (List.getElem_cons_eraseIdx_perm hi).countP_eq (·.interruptsEnabled)
    rw [List.countP_cons, h.count hguards] at hperm
    cases henabled : cpu.guards[i].interruptsEnabled <;> simp [henabled] at hperm ⊢ <;> omega
  cases henabled : cpu.guards[i].interruptsEnabled with
  | false =>
    rw [henabled, Bool.toNat_false, Nat.zero_add] at hcount
    refine ⟨⟨fun _ => rfl, fun hnil => ?_⟩, fun _ => hcount⟩
    rw [show cpu.guards.eraseIdx i = [] from hnil, List.countP_nil] at hcount
    cases flag with
    | false => rfl
    | true => cases hcount
  | true =>
    have hnil : cpu.guards.eraseIdx i = [] := by
      rw [List.eraseIdx_eq_nil_iff]
      exact .inr ⟨horderly _ hguard henabled, by have := horderly _ hguard henabled; omega⟩
    rw [hnil, henabled] at hcount
    refine ⟨⟨fun hne => absurd hnil hne, fun _ => ?_⟩, fun hne => absurd hnil hne⟩
    cases flag with
    | false => cases hcount
    | true => rfl

theorem Remembered.step (h : Remembered flag cpu) (op : Op L) (hreturns : cpu.Returns op)
    (horderly : cpu.Orderly op) : Remembered flag (cpu.step op) := by
  cases op with
  | lock l =>
    have hfree : cpu.locked l = false := hreturns
    simp only [Cpu.step, Cpu.lock, Cpu.pushfqAndCli, Cpu.swap, hfree]
    exact h.acquire l _
  | tryLock l =>
    cases hbusy : cpu.locked l with
    | false =>
      simp only [Cpu.step, Cpu.tryLock, Cpu.pushfqAndCli, Cpu.swap, hbusy]
      exact h.acquire l _
    | true =>
      simp only [Cpu.step, Cpu.tryLock, Cpu.pushfqAndCli, Cpu.swap, hbusy, restoreInterrupts_eq]
      exact ⟨h.masked, h.count⟩
  | dropGuard i => exact h.dropGuard hreturns horderly
  | others locked => exact ⟨h.masked, h.count⟩

theorem orderly_of_masked (h : Remembered flag cpu) (op : Op L) (hreturns : cpu.Returns op)
    (hmasked : Masked flag (cpu.step op)) : cpu.Orderly op := by
  cases op with
  | dropGuard i =>
    intro guard hguard henabled
    have hlt : i < cpu.guards.length := hreturns
    have hguards : cpu.guards ≠ [] := List.ne_nil_of_length_pos (by omega)
    rw [Cpu.step, dropGuard_eq hguard (h.masked.1 hguards), henabled] at hmasked
    by_contra hlength
    have hlast := hmasked.1 fun hnil => ?_
    · cases hlast
    · have herased := congrArg List.length hnil
      rw [List.length_eraseIdx_of_lt hlt, List.length_nil] at herased
      omega
  | _ => trivial

end Steps

/-- Interrupts are masked after every call if and only if no guard that found them enabled is
dropped before another guard. -/
theorem interrupts_masked_iff (flag : Bool) (locked : L → Bool) {ops : List (Op L)}
    (hreturns : Guarded Cpu.step Cpu.Returns ⟨flag, locked, []⟩ ops) :
    (∀ k, Masked flag ((ops.take k).foldl Cpu.step ⟨flag, locked, []⟩)) ↔
      Guarded Cpu.step Cpu.Orderly ⟨flag, locked, []⟩ ops := by
  have hfirst : Remembered flag (⟨flag, locked, []⟩ : Cpu L) :=
    ⟨⟨fun hne => absurd rfl hne, fun _ => rfl⟩, fun hne => absurd rfl hne⟩
  have hstep (cpu : Cpu L) (op : Op L) (h : Remembered flag cpu) := h.step op
  exact (guarded_iff_of_domain hstep (fun _ => Remembered.masked)
    (fun _ op h => orderly_of_masked h op) hfirst hreturns).symm

/-- Two locks, with a guard in between that is taken and dropped under the first. -/
theorem interrupts_masked_nested :
    let ops : List (Op Bool) :=
      [.lock true, .tryLock false, .tryLock true, .dropGuard 1, .dropGuard 0]
    ∀ k, Masked true ((ops.take k).foldl Cpu.step ⟨true, fun _ => false, []⟩) := by
  refine (interrupts_masked_iff true (fun _ => false) ?_).mpr ?_
  · exact ⟨rfl, trivial, trivial, Nat.lt_succ_self 1, Nat.zero_lt_one, trivial⟩
  · refine ⟨trivial, trivial, trivial, ?_, fun _ _ _ => rfl, trivial⟩
    rintro guard hguard henabled
    cases hguard
    cases henabled

/-- The first of two guards is dropped first. -/
theorem interrupts_enabled_under_guard :
    let cpu := [Op.lock true, .lock false, .dropGuard 0].foldl Cpu.step
      (⟨true, fun _ => false, []⟩ : Cpu Bool)
    cpu.guards.length = 1 ∧ cpu.interrupts = true :=
  ⟨rfl, rfl⟩

end AuraOS.Spinlocks
