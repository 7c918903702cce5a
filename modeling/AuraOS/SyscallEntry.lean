import AuraOS.GuardedRuns

/-!
The syscall entry path.  Its three scratch slots are single globals, while each
CPU runs the entry instructions on its own.  One step is one of the
instructions that touch a slot, or a context switch; a step that the CPU cannot
take where it is changes nothing.
-/

namespace AuraOS.SyscallEntry

open GuardedRuns Function

variable {task kstackTop : Nat} {phase : Phase}

/-- What a user task has in RSP and RAX when it executes `syscall`. -/
structure UserRegs where
  rsp : Nat
  rax : Nat
deriving DecidableEq, Repr

/-- How far a CPU is in `syscall_entry`, with what it holds in registers and has
pushed on the kernel stack. -/
inductive Phase where
  | outside
  | savedRsp (regs : UserRegs)
  | onStack (regs : UserRegs) (stack : Nat)
  | pushed (regs : UserRegs) (stack userRsp : Nat)
  | stored (regs : UserRegs) (stack userRsp : Nat)
  | dispatched (regs : UserRegs) (stack userRsp syscallNr : Nat)
deriving DecidableEq, Repr

/-- A CPU; `task` is the kernel stack top of the user task that it runs. -/
structure Cpu where
  task : Option Nat
  phase : Phase
deriving DecidableEq, Repr

structure Machine (n : Nat) where
  userRspScratch : Nat
  kernelRspScratch : Nat
  syscallNrScratch : Nat
  cpus : Fin n → Cpu

inductive EntryStep (n : Nat) where
  | onContextSwitch (cpu : Fin n) (isUser : Bool) (kstackTop : Nat)
  | saveUserRsp (cpu : Fin n) (regs : UserRegs)
  | loadKernelRsp (cpu : Fin n)
  | pushUserRsp (cpu : Fin n)
  | storeSyscallNr (cpu : Fin n)
  | loadSyscallNr (cpu : Fin n)
  | sysret (cpu : Fin n)
deriving DecidableEq, Repr

variable {n : Nat}

def boot : Machine n :=
  { userRspScratch := 0, kernelRspScratch := 0, syscallNrScratch := 0
    cpus := fun _ => ⟨none, .outside⟩ }

def Machine.setPhase (m : Machine n) (cpu : Fin n) (phase : Phase) : Machine n :=
  { m with cpus := update m.cpus cpu ⟨(m.cpus cpu).task, phase⟩ }

def Phase.canSwitch : Phase → Bool
  | .outside | .dispatched .. => true
  | _ => false

def Machine.CanSwitch (m : Machine n) (cpu : Fin n) (kstackTop : Nat) : Prop :=
  (m.cpus cpu).phase.canSwitch = true ∧ ∀ other ≠ cpu, (m.cpus other).task ≠ some kstackTop

instance (m : Machine n) (cpu : Fin n) (kstackTop : Nat) :
    Decidable (m.CanSwitch cpu kstackTop) :=
  inferInstanceAs (Decidable (_ ∧ _))

def Machine.step (m : Machine n) : EntryStep n → Machine n
  | .onContextSwitch cpu true kstackTop =>
    if m.CanSwitch cpu kstackTop then
      { m with
        kernelRspScratch := kstackTop
        cpus := update m.cpus cpu ⟨some kstackTop, .outside⟩ }
    else m
  | .onContextSwitch cpu false _ =>
    if (m.cpus cpu).phase.canSwitch then
      { m with cpus := update m.cpus cpu ⟨none, .outside⟩ }
    else m
  | .saveUserRsp cpu regs =>
    match m.cpus cpu with
    | ⟨some _, .outside⟩ => { m.setPhase cpu (.savedRsp regs) with userRspScratch := regs.rsp }
    | _ => m
  | .loadKernelRsp cpu =>
    match (m.cpus cpu).phase with
    | .savedRsp regs => m.setPhase cpu (.onStack regs m.kernelRspScratch)
    | _ => m
  | .pushUserRsp cpu =>
    match (m.cpus cpu).phase with
    | .onStack regs stack => m.setPhase cpu (.pushed regs stack m.userRspScratch)
    | _ => m
  | .storeSyscallNr cpu =>
    match (m.cpus cpu).phase with
    | .pushed regs stack userRsp =>
      { m.setPhase cpu (.stored regs stack userRsp) with syscallNrScratch := regs.rax }
    | _ => m
  | .loadSyscallNr cpu =>
    match (m.cpus cpu).phase with
    | .stored regs stack userRsp =>
      m.setPhase cpu (.dispatched regs stack userRsp m.syscallNrScratch)
    | _ => m
  | .sysret cpu =>
    match (m.cpus cpu).phase with
    | .dispatched .. => m.setPhase cpu .outside
    | _ => m

def Machine.run (m : Machine n) (steps : List (EntryStep n)) : Machine n :=
  steps.foldl Machine.step m

def DispatchesOwn (m : Machine n) : Prop :=
  ∀ cpu regs stack userRsp syscallNr,
    (m.cpus cpu).phase = .dispatched regs stack userRsp syscallNr →
      syscallNr = regs.rax ∧ (m.cpus cpu).task = some stack ∧ userRsp = regs.rsp

def EntryStep.isEntry : EntryStep n → Bool
  | .onContextSwitch .. => false
  | _ => true

def OneUserCpu (m : Machine n) : EntryStep n → Prop
  | .onContextSwitch cpu true kstackTop =>
    m.CanSwitch cpu kstackTop → ∀ other ≠ cpu, (m.cpus other).task = none
  | _ => True

section Invariant

/-- What the only CPU with a user task finds in the slots and has taken from them. -/
def Phase.Own (m : Machine n) (task : Nat) : Phase → Prop
  | .outside => True
  | .savedRsp regs => m.userRspScratch = regs.rsp
  | .onStack regs stack => stack = task ∧ m.userRspScratch = regs.rsp
  | .pushed regs stack userRsp => stack = task ∧ userRsp = regs.rsp
  | .stored regs stack userRsp =>
    stack = task ∧ userRsp = regs.rsp ∧ m.syscallNrScratch = regs.rax
  | .dispatched regs stack userRsp syscallNr =>
    stack = task ∧ userRsp = regs.rsp ∧ syscallNr = regs.rax

/-- At most one CPU runs a user task; the others are outside of the entry path. -/
structure SlotsOwned (m : Machine n) : Prop where
  one : ∀ cpu other, (m.cpus cpu).task ≠ none → (m.cpus other).task ≠ none → cpu = other
  idle : ∀ cpu, (m.cpus cpu).task = none → (m.cpus cpu).phase = .outside
  stack : ∀ cpu task, (m.cpus cpu).task = some task → m.kernelRspScratch = task
  own : ∀ cpu task, (m.cpus cpu).task = some task → (m.cpus cpu).phase.Own m task

theorem slotsOwned_boot : SlotsOwned (boot : Machine n) where
  one := fun _ _ h => absurd rfl h
  idle := fun _ _ => rfl
  stack := fun _ _ h => nomatch h
  own := fun _ _ h => nomatch h

theorem SlotsOwned.dispatchesOwn {m : Machine n} (h : SlotsOwned m) : DispatchesOwn m := by
  intro cpu regs stack userRsp syscallNr hphase
  cases htask : (m.cpus cpu).task with
  | none =>
    rw [h.idle cpu htask] at hphase
    cases hphase
  | some task =>
    have hown := h.own cpu task htask
    rw [hphase] at hown
    obtain ⟨rfl, huser, hnr⟩ := hown
    exact ⟨hnr, rfl, huser⟩

theorem SlotsOwned.setCpu {m m' : Machine n} (h : SlotsOwned m) {cpu : Fin n}
    (htask : (m.cpus cpu).task = some task)
    (hcpus : m'.cpus = update m.cpus cpu ⟨some task, phase⟩)
    (hkernel : m'.kernelRspScratch = m.kernelRspScratch) (hown : phase.Own m' task) :
    SlotsOwned m' := by
  have hself : m'.cpus cpu = ⟨some task, phase⟩ := by rw [hcpus, update_self]
  have hother : ∀ other ≠ cpu, m'.cpus other = m.cpus other := fun other hne => by
    rw [hcpus, update_of_ne hne]
  have hidle : ∀ other ≠ cpu, (m'.cpus other).task = none := fun other hne => by
    rw [hother other hne]
    by_contra hsome
    exact hne (h.one other cpu hsome (by simp [htask]))
  refine ⟨fun a b ha hb => ?_, fun a ha => ?_, fun a t ha => ?_, fun a t ha => ?_⟩
  · have hacpu : a = cpu := by_contra fun hne => ha (hidle a hne)
    have hbcpu : b = cpu := by_contra fun hne => hb (hidle b hne)
    rw [hacpu, hbcpu]
  · by_cases hacpu : a = cpu
    · rw [hacpu, hself] at ha
      cases ha
    · rw [hother a hacpu] at ha ⊢
      exact h.idle a ha
  · by_cases hacpu : a = cpu
    · rw [hacpu, hself] at ha
      cases ha
      rw [hkernel]
      exact h.stack cpu task htask
    · rw [hidle a hacpu] at ha
      cases ha
  · by_cases hacpu : a = cpu
    · rw [hacpu, hself] at ha ⊢
      cases ha
      exact hown
    · rw [hidle a hacpu] at ha
      cases ha

theorem SlotsOwned.task_of_phase {m : Machine n} (h : SlotsOwned m) {cpu : Fin n}
    (hphase : (m.cpus cpu).phase ≠ .outside) : ∃ task, (m.cpus cpu).task = some task :=
  Option.ne_none_iff_exists'.mp fun hnone => hphase (h.idle cpu hnone)

theorem SlotsOwned.setPhase {m m' : Machine n} (h : SlotsOwned m) {cpu : Fin n}
    (hphase : (m.cpus cpu).phase ≠ .outside) (hcpus : m'.cpus = (m.setPhase cpu phase).cpus)
    (hkernel : m'.kernelRspScratch = m.kernelRspScratch)
    (hown : ∀ task, m.kernelRspScratch = task → (m.cpus cpu).phase.Own m task → phase.Own m' task) :
    SlotsOwned m' := by
  obtain ⟨task, htask⟩ := h.task_of_phase hphase
  refine h.setCpu htask ?_ hkernel (hown task (h.stack cpu task htask) (h.own cpu task htask))
  simp only [hcpus, Machine.setPhase, htask]

theorem SlotsOwned.switchUser {m : Machine n} {cpu : Fin n} (h : SlotsOwned m)
    (hidle : ∀ other ≠ cpu, (m.cpus other).task = none) :
    SlotsOwned { m with
      kernelRspScratch := kstackTop
      cpus := update m.cpus cpu ⟨some kstackTop, .outside⟩ } := by
  refine ⟨fun a b ha hb => ?_, fun a ha => ?_, fun a t ha => ?_, fun a t ha => ?_⟩
  · have hcpu : ∀ c, (update m.cpus cpu ⟨some kstackTop, .outside⟩ c).task ≠ none → c = cpu := by
      intro c hc
      by_contra hne
      rw [update_of_ne hne] at hc
      exact hc (hidle c hne)
    rw [hcpu a ha, hcpu b hb]
  · by_cases hacpu : a = cpu
    · simp [hacpu] at ha
    · simp only [update_of_ne hacpu] at ha ⊢
      exact h.idle a ha
  · by_cases hacpu : a = cpu
    · simpa [hacpu] using ha
    · simp [update_of_ne hacpu, hidle a hacpu] at ha
  · by_cases hacpu : a = cpu
    · simp [hacpu, Phase.Own]
    · simp [update_of_ne hacpu, hidle a hacpu] at ha

theorem SlotsOwned.switchKernel {m : Machine n} {cpu : Fin n} (h : SlotsOwned m) :
    SlotsOwned { m with cpus := update m.cpus cpu ⟨none, .outside⟩ } := by
  have hkept : ∀ c, (update m.cpus cpu ⟨none, .outside⟩ c).task ≠ none →
      update m.cpus cpu ⟨none, .outside⟩ c = m.cpus c := by
    intro c hc
    by_cases hne : c = cpu
    · simp [hne] at hc
    · exact update_of_ne hne _ _
  refine ⟨fun a b ha hb => ?_, fun a ha => ?_, fun a t ha => ?_, fun a t ha => ?_⟩
  · have ha' := ha
    have hb' := hb
    simp only [hkept a ha, hkept b hb] at ha' hb'
    exact h.one a b ha' hb'
  · by_cases hacpu : a = cpu
    · simp [hacpu]
    · simp only [update_of_ne hacpu] at ha ⊢
      exact h.idle a ha
  · have hne : (update m.cpus cpu ⟨none, .outside⟩ a).task ≠ none :=
      fun hnone => nomatch hnone.symm.trans ha
    simp only [hkept a hne] at ha
    exact h.stack a t ha
  · have hne : (update m.cpus cpu ⟨none, .outside⟩ a).task ≠ none :=
      fun hnone => nomatch hnone.symm.trans ha
    simp only [hkept a hne] at ha ⊢
    exact h.own a t ha

theorem SlotsOwned.step {m : Machine n} (h : SlotsOwned m) (e : EntryStep n)
    (hone : OneUserCpu m e) : SlotsOwned (m.step e) := by
  cases e with
  | onContextSwitch cpu isUser kstackTop =>
    cases isUser with
    | true =>
      simp only [Machine.step]
      split
      · rename_i hswitch
        exact h.switchUser (hone hswitch)
      · exact h
    | false =>
      simp only [Machine.step]
      split
      · exact h.switchKernel
      · exact h
  | saveUserRsp cpu regs =>
    simp only [Machine.step]
    split
    · rename_i task hcpu
      have htask : (m.cpus cpu).task = some task := by rw [hcpu]
      have hcpus : (m.setPhase cpu (.savedRsp regs)).cpus =
          update m.cpus cpu ⟨some task, .savedRsp regs⟩ := by
        simp only [Machine.setPhase, htask]
      exact h.setCpu htask hcpus rfl (show Phase.Own _ task (.savedRsp regs) from rfl)
    · exact h
  | loadKernelRsp cpu =>
    simp only [Machine.step]
    split
    · rename_i regs hphase
      refine h.setPhase (by simp [hphase]) rfl rfl fun task hkernel hown => ?_
      rw [hphase] at hown
      exact ⟨hkernel, hown⟩
    · exact h
  | pushUserRsp cpu =>
    simp only [Machine.step]
    split
    · rename_i regs stack hphase
      refine h.setPhase (by simp [hphase]) rfl rfl fun task _ hown => ?_
      rw [hphase] at hown
      exact hown
    · exact h
  | storeSyscallNr cpu =>
    simp only [Machine.step]
    split
    · rename_i regs stack userRsp hphase
      refine h.setPhase (by simp [hphase]) rfl rfl fun task _ hown => ?_
      rw [hphase] at hown
      exact ⟨hown.1, hown.2, rfl⟩
    · exact h
  | loadSyscallNr cpu =>
    simp only [Machine.step]
    split
    · rename_i regs stack userRsp hphase
      refine h.setPhase (by simp [hphase]) rfl rfl fun task _ hown => ?_
      rw [hphase] at hown
      exact hown
    · exact h
  | sysret cpu =>
    simp only [Machine.step]
    split
    · rename_i regs stack userRsp syscallNr hphase
      exact h.setPhase (by simp [hphase]) rfl rfl fun _ _ _ => trivial
    · exact h

theorem SlotsOwned.run_entry {m : Machine n} (h : SlotsOwned m) {steps : List (EntryStep n)}
    (hentry : ∀ e ∈ steps, e.isEntry = true) : SlotsOwned (m.run steps) := by
  induction steps generalizing m with
  | nil => exact h
  | cons e rest ih =>
    have hone : OneUserCpu m e := by
      have hfirst := hentry e (.head _)
      cases e with
      | onContextSwitch cpu isUser kstackTop => cases hfirst
      | _ => trivial
    exact ih (h.step e hone) fun e' he' => hentry e' (.tail _ he')

end Invariant

section Overwritten

def nextSyscall (cpu : Fin n) (regs : UserRegs) : List (EntryStep n) :=
  [.loadKernelRsp cpu, .pushUserRsp cpu, .storeSyscallNr cpu, .loadSyscallNr cpu, .sysret cpu,
    .saveUserRsp cpu regs, .loadKernelRsp cpu, .pushUserRsp cpu, .storeSyscallNr cpu,
    .loadSyscallNr cpu]

theorem nextSyscall_isEntry (cpu : Fin n) (regs : UserRegs) :
    ∀ e ∈ nextSyscall cpu regs, e.isEntry = true := by
  simp [nextSyscall, EntryStep.isEntry]

theorem run_nextSyscall {m : Machine n} {cpu : Fin n} (regs : UserRegs)
    (htask : (m.cpus cpu).task = some task) :
    (m.run (nextSyscall cpu regs)).cpus cpu =
      ⟨some task, .dispatched regs m.kernelRspScratch regs.rsp regs.rax⟩ := by
  cases hcpu : m.cpus cpu with
  | mk t phase =>
    rw [hcpu] at htask
    cases htask
    -- wherever the CPU is, the first half brings it out of the entry path
    cases phase <;> simp [nextSyscall, Machine.run, Machine.step, Machine.setPhase, hcpu]

/-- After a switch that the condition excludes, the CPU that already ran a user task
makes its next syscall on the stack of the other task. -/
theorem not_dispatchesOwn_of_switch {m : Machine n} {cpu other : Fin n}
    (hswitch : m.CanSwitch cpu kstackTop) (hne : other ≠ cpu)
    (htask : (m.cpus other).task = some task) (regs : UserRegs) :
    ¬ DispatchesOwn ((m.step (.onContextSwitch cpu true kstackTop)).run
      (nextSyscall other regs)) := by
  have hstep : m.step (.onContextSwitch cpu true kstackTop) =
      { m with
        kernelRspScratch := kstackTop
        cpus := update m.cpus cpu ⟨some kstackTop, .outside⟩ } := if_pos hswitch
  have hkept : ((m.step (.onContextSwitch cpu true kstackTop)).cpus other).task = some task := by
    rw [hstep]
    exact (congrArg Cpu.task (update_of_ne hne _ _)).trans htask
  have hrun := run_nextSyscall regs hkept
  intro h
  have hown := (h other regs _ _ _ (congrArg Cpu.phase hrun)).2.1
  rw [hrun, hstep] at hown
  exact hswitch.2 other hne (htask.trans hown)

end Overwritten

/-- The condition holds at every step of a run exactly if on the way no syscall can go
wrong: neither in the run nor when the entry path is followed from one of its states. -/
theorem dispatchesOwn_iff_oneUserCpu (steps : List (EntryStep n)) :
    Guarded Machine.step OneUserCpu boot steps ↔
      ∀ k entry, (∀ e ∈ entry, EntryStep.isEntry e = true) →
        DispatchesOwn ((boot.run (steps.take k)).run entry) := by
  have hstep : ∀ (m : Machine n) e, SlotsOwned m → OneUserCpu m e → SlotsOwned (m.step e) :=
    fun m e h => h.step e
  have hgood : ∀ m : Machine n, SlotsOwned m → ∀ entry,
      (∀ e ∈ entry, EntryStep.isEntry e = true) → DispatchesOwn (m.run entry) :=
    fun m h entry hentry => (h.run_entry hentry).dispatchesOwn
  refine guarded_iff_forall_take hstep hgood ?_ slotsOwned_boot
  intro m e _ hown
  match e with
  | .onContextSwitch cpu true kstackTop =>
    intro hswitch other hne
    by_contra htask
    obtain ⟨task, htask⟩ := Option.ne_none_iff_exists'.mp htask
    exact not_dispatchesOwn_of_switch hswitch hne htask ⟨0, 0⟩
      (hown _ (nextSyscall_isEntry other ⟨0, 0⟩))
  | .onContextSwitch _ false _ | .saveUserRsp .. | .loadKernelRsp _ | .pushUserRsp _
  | .storeSyscallNr _ | .loadSyscallNr _ | .sysret _ => trivial

def twoSyscalls : List (EntryStep 2) :=
  [.onContextSwitch 0 true 0x1000, .onContextSwitch 1 true 0x2000,
    .saveUserRsp 0 ⟨0x7000, 4⟩, .saveUserRsp 1 ⟨0x8000, 1⟩,
    .loadKernelRsp 0, .loadKernelRsp 1, .pushUserRsp 0, .pushUserRsp 1,
    .storeSyscallNr 0, .storeSyscallNr 1, .loadSyscallNr 0]

/-- The first dispatch has the number, the stack and the user RSP of the other task. -/
theorem dispatch_of_other_task :
    (boot.run twoSyscalls).cpus 0 = ⟨some 0x1000, .dispatched ⟨0x7000, 4⟩ 0x2000 0x8000 1⟩ ∧
      ¬ DispatchesOwn (boot.run twoSyscalls) := by
  have hcpu : (boot.run twoSyscalls).cpus 0 =
      ⟨some 0x1000, .dispatched ⟨0x7000, 4⟩ 0x2000 0x8000 1⟩ := by decide
  refine ⟨hcpu, fun h => ?_⟩
  have hnr := (h 0 _ _ _ _ (congrArg Cpu.phase hcpu)).1
  cases hnr

end AuraOS.SyscallEntry
