import AuraOS.GuardedRuns
import AuraOS.Scheduler

/-!
Bringing up the Application Processors.  `smp::init` gives a number to each
processor it wakes; a processor that answers marks that number online and
counts itself.  The schedulers take the numbers below the count for the CPUs of
the machine, so the two agree only if the processors answer in order.
-/

namespace AuraOS.Startup

open Scheduling Function
open GuardedRuns

def maxCpus : Nat := 8

structure CpuCore where
  processorId : UInt8
  apicId : UInt8
  isEnabled : Bool
deriving DecidableEq, Repr

structure PerCpu where
  cpuId : Nat
  apicId : Nat
  online : Bool

structure Smp where
  bspApicId : UInt8
  /-- The entries that the loop of `init` has not visited. -/
  remaining : List CpuCore
  /-- The number for the next processor. -/
  cpuIdx : Nat
  apCpuIndex : Nat
  /-- Processors that have been sent the start-up interrupts and have not run `ap_entry`. -/
  starting : List CpuCore
  perCpu : Nat → PerCpu
  queues : Nat → CpuScheduler
  onlineCpus : Nat

inductive Event where
  /-- One round of the loop of `init` on the boot processor. -/
  | wakeNext
  /-- A woken processor runs `ap_entry`, within its round or later. -/
  | apEntry (core : CpuCore)
deriving DecidableEq, Repr

/-- `init_ap`; the processors are told apart by their numbers. -/
def initAp (sched : CpuScheduler) (cpu : Nat) : CpuScheduler :=
  if sched.tasks.isEmpty then { sched.push (Task.rootForCpu cpu cpu) with current := 0 } else sched

def Smp.wakeNext (s : Smp) : Smp :=
  match s.remaining with
  | [] => s
  | core :: rest =>
    if core.isEnabled = false ∨ core.apicId = s.bspApicId then { s with remaining := rest }
    else if maxCpus ≤ s.cpuIdx then { s with remaining := [] }
    else
      { s with
        remaining := rest
        perCpu := update s.perCpu s.cpuIdx
          { s.perCpu s.cpuIdx with cpuId := s.cpuIdx, apicId := core.apicId.toNat }
        apCpuIndex := s.cpuIdx
        starting := core :: s.starting
        cpuIdx := s.cpuIdx + 1 }

/-- The processor takes the number that stands in `AP_CPU_INDEX` when it gets there. -/
def Smp.apEntry (s : Smp) (core : CpuCore) : Smp :=
  if core ∈ s.starting then
    { s with
      starting := s.starting.erase core
      queues := update s.queues s.apCpuIndex (initAp (s.queues s.apCpuIndex) s.apCpuIndex)
      perCpu := update s.perCpu s.apCpuIndex { s.perCpu s.apCpuIndex with online := true }
      onlineCpus := s.onlineCpus + 1 }
  else s

def Smp.step (s : Smp) : Event → Smp
  | .wakeNext => s.wakeNext
  | .apEntry core => s.apEntry core

def Smp.after (s : Smp) (events : List Event) : Smp :=
  events.foldl Smp.step s

/-- Before the loop: the boot processor is online with the queue that `task::init` has
filled.  The loop is not entered without ACPI tables, with a single entry or with no other
processor to wake. -/
def Smp.start (acpiCores : Option (List CpuCore)) (bspApicId : UInt8) (sentinelStack : Nat) :
    Smp where
  bspApicId := bspApicId
  remaining :=
    match acpiCores with
    | none => []
    | some cores =>
      if cores.length ≤ 1 then []
      else if cores.countP (fun core => core.isEnabled && core.apicId ≠ bspApicId) = 0 then []
      else cores
  cpuIdx := 1
  apCpuIndex := 0
  starting := []
  perCpu := fun c => if c = 0 then ⟨0, bspApicId.toNat, true⟩ else ⟨0, 0, false⟩
  queues := fun c =>
    if c = 0 then ⟨[Task.rootForCpu 0 0, Task.new 1 sentinelStack 1], 0, 4, 0⟩ else ⟨[], 0, 0, 0⟩
  onlineCpus := 1

/-- The numbers that `choose_target_cpu`, `timer_tick`, `kill_task`, `reap_dead_tasks` and
`try_steal_task` go through. -/
def Smp.schedulerCpus (s : Smp) : List Nat :=
  List.range (min (max s.onlineCpus 1) maxCpus)

/-- The loop of `choose_target_cpu`: the first of the shortest queues. -/
def Smp.chooseTargetCpu (s : Smp) : Nat :=
  if s.onlineCpus ≤ 1 then 0
  else
    (s.schedulerCpus.foldl
      (fun best cpu =>
        let load := (s.queues cpu).tasks.length
        if load < best.2 then (cpu, load) else best)
      (0, 2 ^ 64 - 1)).1

def Smp.isOnline (s : Smp) (cpu : Nat) : Bool :=
  (s.perCpu cpu).online

structure Consistent (s : Smp) : Prop where
  running : ∀ cpu ∈ s.schedulerCpus, s.isOnline cpu = true ∧ (s.queues cpu).tasks ≠ []
  visited : ∀ cpu, s.isOnline cpu = true → cpu ∈ s.schedulerCpus

def Smp.InOrder (s : Smp) : Event → Prop
  | .wakeNext => True
  | .apEntry core => core ∈ s.starting → s.apCpuIndex = s.onlineCpus

structure StartupInvariant (s : Smp) : Prop where
  counted : s.onlineCpus + s.starting.length ≤ s.cpuIdx
  positive : 1 ≤ s.onlineCpus
  bound : s.cpuIdx ≤ maxCpus
  index : s.apCpuIndex < s.cpuIdx
  latest : ∀ cpu, s.isOnline cpu = true → cpu ≤ s.apCpuIndex
  queue : ∀ cpu, s.isOnline cpu = true → (s.queues cpu).tasks ≠ []
  entered : ∃ numbers : List Nat, numbers.length = s.onlineCpus ∧
    ∀ cpu, s.isOnline cpu = true → cpu ∈ numbers

theorem initAp_ne_nil (sched : CpuScheduler) (cpu : Nat) : (initAp sched cpu).tasks ≠ [] := by
  simp only [initAp]
  split
  · simp only [CpuScheduler.push]
    split <;> simp
  · rename_i hne
    simpa using hne

section Steps

variable {s : Smp}

theorem wakeNext_cases (s : Smp) :
    (∃ rest, s.wakeNext = { s with remaining := rest }) ∨ s.cpuIdx < maxCpus ∧
      ∃ core rest, s.wakeNext = { s with
        remaining := rest
        perCpu := update s.perCpu s.cpuIdx
          { s.perCpu s.cpuIdx with cpuId := s.cpuIdx, apicId := core.apicId.toNat }
        apCpuIndex := s.cpuIdx
        starting := core :: s.starting
        cpuIdx := s.cpuIdx + 1 } := by
  cases hremaining : s.remaining with
  | nil =>
    have hsame : s.wakeNext = s := by simp only [Smp.wakeNext, hremaining]
    exact .inl ⟨s.remaining, hsame⟩
  | cons core rest =>
    simp only [Smp.wakeNext, hremaining]
    split
    · exact .inl ⟨rest, rfl⟩
    split
    · exact .inl ⟨[], rfl⟩
    · rename_i hlt
      exact .inr ⟨by omega, core, rest, rfl⟩

theorem isOnline_wakeNext (s : Smp) (cpu : Nat) : s.wakeNext.isOnline cpu = s.isOnline cpu := by
  rcases wakeNext_cases s with ⟨rest, heq⟩ | ⟨-, core, rest, heq⟩
  · rw [heq]
    rfl
  · rw [heq]
    simp only [Smp.isOnline, update_apply]
    split
    · rename_i hcpu
      rw [hcpu]
    · rfl

theorem onlineCpus_wakeNext (s : Smp) : s.wakeNext.onlineCpus = s.onlineCpus := by
  rcases wakeNext_cases s with ⟨rest, heq⟩ | ⟨-, core, rest, heq⟩ <;> rw [heq]

theorem queues_wakeNext (s : Smp) : s.wakeNext.queues = s.queues := by
  rcases wakeNext_cases s with ⟨rest, heq⟩ | ⟨-, core, rest, heq⟩ <;> rw [heq]

theorem isOnline_apEntry {core : CpuCore} (h : core ∈ s.starting) (cpu : Nat) :
    (s.apEntry core).isOnline cpu = true ↔ s.isOnline cpu = true ∨ cpu = s.apCpuIndex := by
  rw [Smp.apEntry, if_pos h]
  simp only [Smp.isOnline, update_apply]
  split
  · rename_i hcpu
    simp [hcpu]
  · rename_i hcpu
    simp [hcpu]

variable (h : StartupInvariant s)
include h

theorem StartupInvariant.wakeNext : StartupInvariant s.wakeNext := by
  have honline := isOnline_wakeNext s
  rcases wakeNext_cases s with ⟨rest, heq⟩ | ⟨hlt, core, rest, heq⟩
  · rw [heq]
    exact ⟨h.counted, h.positive, h.bound, h.index, h.latest, h.queue, h.entered⟩
  · have hqueues := queues_wakeNext s
    have hcount := onlineCpus_wakeNext s
    have hcounted := h.counted
    have hindex := h.index
    refine ⟨?_, hcount ▸ h.positive, ?_, ?_, fun cpu hcpu => ?_, fun cpu hcpu => ?_, ?_⟩
    · rw [heq]
      grind
    · rw [heq]
      exact hlt
    · rw [heq]
      exact Nat.lt_succ_self _
    · have hle := h.latest cpu ((honline cpu).symm.trans hcpu)
      rw [heq]
      show cpu ≤ s.cpuIdx
      omega
    · rw [hqueues]
      exact h.queue cpu ((honline cpu).symm.trans hcpu)
    · obtain ⟨numbers, hlength, hmem⟩ := h.entered
      exact ⟨numbers, hlength.trans hcount.symm,
        fun cpu hcpu => hmem cpu ((honline cpu).symm.trans hcpu)⟩

theorem StartupInvariant.apEntry (core : CpuCore) : StartupInvariant (s.apEntry core) := by
  by_cases hmem : core ∈ s.starting
  · have honline := fun cpu => isOnline_apEntry hmem cpu
    have heq : s.apEntry core = _ := if_pos hmem
    have hcounted := h.counted
    refine ⟨?_, ?_, ?_, ?_, fun cpu hcpu => ?_, fun cpu hcpu => ?_, ?_⟩
    · rw [heq]
      grind
    · rw [heq]
      exact Nat.le_add_left _ _
    · rw [heq]
      exact h.bound
    · rw [heq]
      exact h.index
    · rw [honline] at hcpu
      rw [heq]
      rcases hcpu with hcpu | rfl
      · exact h.latest cpu hcpu
      · exact Nat.le_refl _
    · rw [honline] at hcpu
      rw [heq]
      simp only [update_apply]
      split
      · exact initAp_ne_nil _ _
      · rename_i hne
        exact h.queue cpu (hcpu.resolve_right hne)
    · obtain ⟨numbers, hnumbers, hall⟩ := h.entered
      refine ⟨s.apCpuIndex :: numbers, ?_, fun cpu hcpu => ?_⟩
      · rw [heq, List.length_cons, hnumbers]
      · rw [honline] at hcpu
        rw [List.mem_cons]
        exact hcpu.symm.imp_right fun hcpu => hall cpu hcpu
  · rwa [Smp.apEntry, if_neg hmem]

theorem StartupInvariant.step (e : Event) : StartupInvariant (s.step e) := by
  cases e with
  | wakeNext => exact h.wakeNext
  | apEntry core => exact h.apEntry core

omit h in
theorem startupInvariant_start (acpiCores : Option (List CpuCore)) (bspApicId : UInt8)
    (sentinelStack : Nat) : StartupInvariant (Smp.start acpiCores bspApicId sentinelStack) := by
  have honline : ∀ cpu, (Smp.start acpiCores bspApicId sentinelStack).isOnline cpu = true →
      cpu = 0 := by
    intro cpu hcpu
    simp only [Smp.isOnline, Smp.start] at hcpu
    split at hcpu
    · assumption
    · cases hcpu
  refine ⟨Nat.le_refl _, Nat.le_refl _, Nat.le_add_left 1 7, Nat.one_pos, ?_, ?_, [0], rfl, ?_⟩
  · intro cpu hcpu
    rw [honline cpu hcpu]
    exact Nat.zero_le _
  · intro cpu hcpu
    rw [honline cpu hcpu]
    simp [Smp.start]
  · intro cpu hcpu
    rw [honline cpu hcpu]
    exact List.mem_singleton_self _

theorem mem_schedulerCpus (cpu : Nat) : cpu ∈ s.schedulerCpus ↔ cpu < s.onlineCpus := by
  have hpos := h.positive
  have hcounted := h.counted
  have hbound := h.bound
  rw [Smp.schedulerCpus, List.mem_range]
  omega

theorem consistent_iff : Consistent s ↔ ∀ cpu, s.isOnline cpu = true ↔ cpu < s.onlineCpus := by
  constructor
  · intro hs cpu
    rw [← mem_schedulerCpus h]
    exact ⟨hs.visited cpu, fun hmem => (hs.running cpu hmem).1⟩
  · intro honline
    refine ⟨fun cpu hmem => ?_, fun cpu hcpu =>
      (mem_schedulerCpus h cpu).mpr ((honline cpu).mp hcpu)⟩
    have hcpu := (honline cpu).mpr ((mem_schedulerCpus h cpu).mp hmem)
    exact ⟨hcpu, h.queue cpu hcpu⟩

theorem StartupInvariant.exists_offline : ∃ cpu ≤ s.onlineCpus, s.isOnline cpu = false := by
  obtain ⟨numbers, hlength, hmem⟩ := h.entered
  by_contra hall
  push Not at hall
  have hsub : List.range (s.onlineCpus + 1) ⊆ numbers := by
    intro cpu hcpu
    have hlt := List.mem_range.mp hcpu
    exact hmem cpu (by simpa using hall cpu (by omega))
  have hle := (List.subperm_of_subset List.nodup_range hsub).length_le
  grind

theorem consistent_step_iff (e : Event) : Consistent (s.step e) ↔ Consistent s ∧ s.InOrder e := by
  rw [consistent_iff h, consistent_iff (h.step e)]
  cases e with
  | wakeNext =>
    show (∀ cpu, s.wakeNext.isOnline cpu = true ↔ cpu < s.wakeNext.onlineCpus) ↔ _ ∧ True
    simp only [isOnline_wakeNext, onlineCpus_wakeNext, and_true]
  | apEntry core =>
    by_cases hmem : core ∈ s.starting
    · have hcount : (s.apEntry core).onlineCpus = s.onlineCpus + 1 := by
        rw [Smp.apEntry, if_pos hmem]
      show (∀ cpu, (s.apEntry core).isOnline cpu = true ↔ cpu < (s.apEntry core).onlineCpus) ↔
        _ ∧ (core ∈ s.starting → s.apCpuIndex = s.onlineCpus)
      simp only [isOnline_apEntry hmem, hcount, hmem, forall_const]
      constructor
      · intro honline
        -- one number up to the count was free, and the new one is the largest
        obtain ⟨free, hfree, hoffline⟩ := h.exists_offline
        have hnew : free = s.apCpuIndex := by
          have hor := (honline free).mpr (by omega)
          rw [hoffline] at hor
          exact hor.resolve_left Bool.false_ne_true
        have hindex : s.apCpuIndex = s.onlineCpus := by
          rcases (honline s.onlineCpus).mpr (by omega) with hlast | hlast
          · have hle := h.latest _ hlast
            omega
          · exact hlast.symm
        refine ⟨fun cpu => ?_, hindex⟩
        have hcpu := honline cpu
        constructor
        · intro hon
          have hlt := hcpu.mp (.inl hon)
          have hne : cpu ≠ s.onlineCpus := by
            rintro rfl
            rw [← hindex, ← hnew, hoffline] at hon
            cases hon
          omega
        · intro hlt
          exact (hcpu.mpr (by omega)).resolve_right (by omega)
      · rintro ⟨honline, hindex⟩ cpu
        rw [honline, hindex]
        omega
    · have hsame : s.apEntry core = s := if_neg hmem
      show (∀ cpu, (s.apEntry core).isOnline cpu = true ↔ cpu < (s.apEntry core).onlineCpus) ↔
        _ ∧ (core ∈ s.starting → _)
      rw [hsame]
      simp [hmem]

omit h in
theorem consistent_start (acpiCores : Option (List CpuCore)) (bspApicId : UInt8)
    (sentinelStack : Nat) : Consistent (Smp.start acpiCores bspApicId sentinelStack) := by
  rw [consistent_iff (startupInvariant_start ..)]
  intro cpu
  simp only [Smp.isOnline, Smp.start]
  split
  · rename_i hcpu
    simp [hcpu]
  · rename_i hcpu
    grind

end Steps

/-- For every list of cores and whichever processors come up, and when: the schedulers
take exactly the processors online for the CPUs, each with its queue, if and only if each
processor that comes up finds in `AP_CPU_INDEX` the number of those online before it. -/
theorem consistent_iff_inOrder (acpiCores : Option (List CpuCore)) (bspApicId : UInt8)
    (sentinelStack : Nat) (events : List Event) :
    Guarded Smp.step Smp.InOrder (Smp.start acpiCores bspApicId sentinelStack) events ↔
      Consistent ((Smp.start acpiCores bspApicId sentinelStack).after events) := by
  have hkeep : ∀ s e, StartupInvariant s → StartupInvariant (Smp.step s e) := fun _ e h => h.step e
  have hrun : _ ∧ Guarded Smp.step _ _ events ↔ _ :=
    good_and_guarded_iff hkeep (fun _ e h => consistent_step_iff h e)
    (startupInvariant_start acpiCores bspApicId sentinelStack)
  rw [← Smp.after] at hrun
  rw [← hrun]
  exact (and_iff_right (consistent_start acpiCores bspApicId sentinelStack)).symm

def threeCores : List CpuCore :=
  [⟨0, 0, true⟩, ⟨1, 1, true⟩, ⟨2, 2, true⟩]

/-- The processor with APIC id 1 does not answer, the one with APIC id 2 does. -/
def secondAnswers : List Event :=
  [.wakeNext, .wakeNext, .wakeNext, .apEntry ⟨2, 2, true⟩]

/-- The number 1 counts as a CPU and gets the next task, but number 2 is online. -/
theorem task_for_absent_processor :
    ((Smp.start (some threeCores) 0 0x20000).after secondAnswers).schedulerCpus = [0, 1] ∧
      ((Smp.start (some threeCores) 0 0x20000).after secondAnswers).isOnline 1 = false ∧
      ((Smp.start (some threeCores) 0 0x20000).after secondAnswers).isOnline 2 = true ∧
      ((Smp.start (some threeCores) 0 0x20000).after secondAnswers).chooseTargetCpu = 1 := by
  decide

end AuraOS.Startup
