import AuraOS.GuardedRuns
import AuraOS.Scheduler
import AuraOS.WordMemory

namespace AuraOS.Scheduling

open GuardedRuns WordMemory

inductive Register where
  | rbp | rbx | r12 | r13 | r14 | r15
  deriving DecidableEq, Repr

structure Machine where
  mem : Memory
  regs : Register → Word
  rflags : Word
  rsp : Word
  rip : Word
  rdi : Word
  rsi : Word

inductive Instruction where
  | pushfq
  | push (reg : Register)
  /-- `mov [rdi], rsp` -/
  | storeRsp
  /-- `mov rsp, rsi` -/
  | loadRsp
  | pop (reg : Register)
  | popfq
  | ret

def Machine.pushWord (m : Machine) (word : Word) : Machine :=
  { m with mem := m.mem.write (m.rsp - 8) word, rsp := m.rsp - 8 }

def Machine.execute (m : Machine) : Instruction → Machine
  | .pushfq => m.pushWord m.rflags
  | .push reg => m.pushWord (m.regs reg)
  | .storeRsp => { m with mem := m.mem.write m.rdi m.rsp }
  | .loadRsp => { m with rsp := m.rsi }
  | .pop reg =>
    { m with regs := Function.update m.regs reg (m.mem.read m.rsp), rsp := m.rsp + 8 }
  | .popfq => { m with rflags := m.mem.read m.rsp, rsp := m.rsp + 8 }
  | .ret => { m with rip := m.mem.read m.rsp, rsp := m.rsp + 8 }

def switchContextCode : List Instruction :=
  [.pushfq, .push .rbp, .push .rbx, .push .r12, .push .r13, .push .r14, .push .r15, .storeRsp,
    .loadRsp, .pop .r15, .pop .r14, .pop .r13, .pop .r12, .pop .rbx, .pop .rbp, .popfq, .ret]

/-- The call `switch_context(old_rsp, new_rsp)`, from its first instruction on. -/
def Machine.switchContext (m : Machine) (oldRsp newRsp : Word) : Machine :=
  switchContextCode.foldl Machine.execute { m with rdi := oldRsp, rsi := newRsp }

def newStack (mem : Memory) (stackBase : Nat) (rip : Word) : Memory :=
  let zeroed : Memory := fun a =>
    if (a - BitVec.ofNat 64 stackBase).toNat < stackSize then 0 else mem a
  zeroed.writeWords (BitVec.ofNat 64 (initialRsp stackBase)) [0, 0, 0, 0, 0, 0, 0x202, rip, 0]

def frame (regs : Register → Word) (rflags rip : Word) : List Word :=
  [regs .r15, regs .r14, regs .r13, regs .r12, regs .rbx, regs .rbp, rflags, rip]

/-- What happens on a CPU while a task is suspended: some other task runs, or one calls
`switch_context`. -/
inductive Activity where
  | compute (after : Machine)
  | switch (oldRsp newRsp : Word)

def Machine.HasContext (m : Machine) (regs : Register → Word) (rflags rip : Word) : Prop :=
  m.regs = regs ∧ m.rflags = rflags ∧ m.rip = rip

variable {m : Machine} {oldRsp newRsp lastRsp : Word} {activities : List Activity}

theorem switchContext_mem (m : Machine) (oldRsp newRsp : Word) :
    (m.switchContext oldRsp newRsp).mem = (m.mem.writeWords (m.rsp - 56)
      ((frame m.regs m.rflags m.rip).take 7)).write oldRsp (m.rsp - 56) := by
  obtain ⟨top, htop⟩ : ∃ top, m.rsp = top + 56 := ⟨m.rsp - 56, (sub_add_cancel _ _).symm⟩
  simp only [Machine.switchContext, switchContextCode, List.foldl, Machine.execute,
    Machine.pushWord, frame, List.take, Memory.writeWords, htop, add_sub_assoc, add_assoc]
  rfl

theorem switchContext_resumes {regs : Register → Word} {rflags rip : Word}
    (h : (m.switchContext oldRsp newRsp).mem.readWords newRsp 8 = frame regs rflags rip) :
    (m.switchContext oldRsp newRsp).HasContext regs rflags rip := by
  simp only [frame, Memory.readWords, List.cons.injEq, and_true] at h
  obtain ⟨hr15, hr14, hr13, hr12, hrbx, hrbp, hrflags, hrip⟩ := h
  refine ⟨funext fun reg => ?_, hrflags, hrip⟩
  cases reg with
  | rbp => exact hrbp
  | rbx => exact hrbx
  | r12 => exact hr12
  | r13 => exact hr13
  | r14 => exact hr14
  | r15 => exact hr15

theorem switchContext_rsp (m : Machine) (oldRsp newRsp : Word) :
    (m.switchContext oldRsp newRsp).rsp = newRsp + 64 := by
  simp only [Machine.switchContext, switchContextCode, List.foldl, Machine.execute,
    Machine.pushWord, add_assoc]
  rfl

theorem newStack_frame (mem : Memory) (stackBase : Nat) (rip : Word) :
    (newStack mem stackBase rip).readWords (BitVec.ofNat 64 (initialRsp stackBase)) 8 =
      frame (fun _ => 0) 0x202 rip := by
  have hlength : 8 * [0, 0, 0, 0, 0, 0, 0x202, rip, 0].length ≤ 2 ^ 64 := by simp
  exact congrArg (List.take 8) (readWords_writeWords _ _ hlength)

def Machine.step (m : Machine) : Activity → Machine
  | .compute after => after
  | .switch oldRsp newRsp => m.switchContext oldRsp newRsp

/-- These bytes are not written: they lie neither on the stack that is in use nor in the
field for its pointer. -/
def Machine.Spares (kept : Word → Prop) (m : Machine) : Activity → Prop
  | .compute after => ∀ a, kept a → after.mem a = m.mem a
  | .switch oldRsp _ => ∀ a, kept a → ¬ InRange (m.rsp - 56) 56 a ∧ ¬ InRange oldRsp 8 a

theorem step_kept {kept : Word → Prop} {activity : Activity} (h : m.Spares kept activity) {a : Word}
    (ha : kept a) : (m.step activity).mem a = m.mem a := by
  cases activity with
  | compute after => exact h a ha
  | switch oldRsp newRsp =>
    obtain ⟨hframe, hfield⟩ := h a ha
    rw [Machine.step, switchContext_mem, write_of_not_inRange hfield]
    exact writeWords_of_not_inRange (by simp [frame]) hframe

def Machine.StartsAt (m : Machine) (entry : Word) : Prop :=
  m.HasContext (fun _ => 0) 0x202 entry ∧ m.rsp.toNat % 16 = 8

theorem initialRsp_inRange {stackBase : Nat} (h : stackBase + stackSize ≤ 2 ^ 64) {a : Word}
    (ha : InRange (BitVec.ofNat 64 (initialRsp stackBase)) 64 a) :
    InRange (BitVec.ofNat 64 stackBase) stackSize a := by
  simp only [InRange, BitVec.toNat_sub, BitVec.toNat_ofNat, initialRsp, stackSize] at *
  omega

def Machine.start (m : Machine) (stackBase : Nat) (entry oldRsp : Word) : Machine :=
  { m with mem := newStack m.mem stackBase entry }.switchContext oldRsp
    (BitVec.ofNat 64 (initialRsp stackBase))

theorem start_resumes {stackBase : Nat} (hstack : stackBase + stackSize ≤ 2 ^ 64) (entry : Word)
    (hspares : m.Spares (InRange (BitVec.ofNat 64 stackBase) stackSize) (.switch oldRsp newRsp)) :
    (m.start stackBase entry oldRsp).HasContext (fun _ => 0) 0x202 entry := by
  have hkept : ∀ a, InRange (BitVec.ofNat 64 (initialRsp stackBase)) (8 * 8) a →
      (m.start stackBase entry oldRsp).mem a = newStack m.mem stackBase entry a := by
    intro a ha
    have hspared : { m with mem := newStack m.mem stackBase entry }.Spares
      (InRange (BitVec.ofNat 64 stackBase) stackSize)
      (.switch oldRsp (BitVec.ofNat 64 (initialRsp stackBase))) := hspares
    exact step_kept hspared (initialRsp_inRange hstack ha)
  exact switchContext_resumes
    ((readWords_congr (by decide) hkept).trans (newStack_frame m.mem stackBase entry))

theorem start_rsp (m : Machine) (stackBase : Nat) (entry oldRsp : Word) :
    (m.start stackBase entry oldRsp).rsp.toNat % 16 = 0 := by
  have hrsp : (m.start stackBase entry oldRsp).rsp =
      BitVec.ofNat 64 (initialRsp stackBase) + 8 + 8 + 8 + 8 + 8 + 8 + 8 + 8 := rfl
  simp only [hrsp, initialRsp, stackSize] at *
  bv_omega

def Machine.Leaves (m : Machine) (oldRsp a : Word) : Prop :=
  InRange (m.rsp - 56) 64 a ∨ InRange oldRsp 8 a

theorem switchContext_saves (hfield : ∀ a, InRange (m.rsp - 56) 64 a → ¬ InRange oldRsp 8 a)
    (newRsp : Word) :
    (m.switchContext oldRsp newRsp).mem.read oldRsp = m.rsp - 56 ∧
      (m.switchContext oldRsp newRsp).mem.readWords (m.rsp - 56) 8 =
        frame m.regs m.rflags (m.mem.read m.rsp) := by
  have hlength : 8 * ((frame m.regs m.rflags m.rip).take 7).length ≤ 2 ^ 64 := by simp [frame]
  have hmem : ∀ a, InRange (m.rsp - 56) (8 * 8) a → (m.switchContext oldRsp newRsp).mem a =
      m.mem.writeWords (m.rsp - 56) ((frame m.regs m.rflags m.rip).take 7) a := by
    intro a ha
    rw [switchContext_mem, write_of_not_inRange (hfield a ha)]
  have hsaved := readWords_writeWords m.mem (m.rsp - 56) hlength
  have hreturn : (m.mem.writeWords (m.rsp - 56) ((frame m.regs m.rflags m.rip).take 7)).read
      (m.rsp - 56 + 56) = m.mem.read m.rsp := by
    rw [sub_add_cancel]
    refine read_congr fun a ha => writeWords_of_not_inRange hlength fun hin => ?_
    have hdiff : a - (m.rsp - 56) = a - m.rsp + 56 := by
      rw [sub_sub_eq_add_sub, add_sub_right_comm]
    have hword : (56 : Word).toNat = 56 := rfl
    simp only [InRange, hdiff, BitVec.toNat_add (a - m.rsp) 56, hword, frame, List.take,
      List.length_cons, List.length_nil] at ha hin
    omega
  refine ⟨by rw [switchContext_mem, read_write], ?_⟩
  rw [readWords_congr (by decide) hmem, readWords_succ]
  exact congrArg₂ (· ++ [·]) hsaved hreturn

/-- What happens while a task is switched away from spares what it leaves, and so does the
switch back to it. -/
def Machine.Away (m : Machine) (oldRsp newRsp : Word) (activities : List Activity)
    (lastRsp : Word) : Prop :=
  (∀ a, InRange (m.rsp - 56) 64 a → ¬ InRange oldRsp 8 a) ∧
    Guarded Machine.step (Machine.Spares (m.Leaves oldRsp)) (m.switchContext oldRsp newRsp)
      (activities ++ [.switch lastRsp (m.rsp - 56)])

theorem switched_back (h : m.Away oldRsp newRsp activities lastRsp) :
    let s := activities.foldl Machine.step (m.switchContext oldRsp newRsp)
    (s.switchContext lastRsp (s.mem.read oldRsp)).HasContext m.regs m.rflags (m.mem.read m.rsp) ∧
      (s.switchContext lastRsp (s.mem.read oldRsp)).rsp = m.rsp + 8 := by
  intro s
  obtain ⟨hfield, hrun⟩ := h
  obtain ⟨hrun, hlast⟩ := guarded_concat.mp hrun
  obtain ⟨hpointer, hframe⟩ := switchContext_saves hfield newRsp
  have hstep : ∀ (s : Machine) (e : Activity),
      (∀ a, m.Leaves oldRsp a → s.mem a = (m.switchContext oldRsp newRsp).mem a) →
      s.Spares (m.Leaves oldRsp) e →
      ∀ a, m.Leaves oldRsp a → (s.step e).mem a = (m.switchContext oldRsp newRsp).mem a :=
    fun s e hs hspares a ha => (step_kept hspares ha).trans (hs a ha)
  have hkept := invariant_of_guarded hstep (fun _ _ => rfl) hrun
  have hread : s.mem.read oldRsp = m.rsp - 56 :=
    (read_congr fun a ha => hkept a (.inr ha)).trans hpointer
  have hback : (s.switchContext lastRsp (m.rsp - 56)).mem.readWords (m.rsp - 56) 8 =
      frame m.regs m.rflags (m.mem.read m.rsp) :=
    (readWords_congr (by decide) fun a ha => (step_kept hlast (.inl ha)).trans
      (hkept a (.inl ha))).trans hframe
  rw [hread]
  refine ⟨switchContext_resumes hback, (switchContext_rsp _ _ _).trans ?_⟩
  rw [sub_add_eq_add_sub, add_sub_assoc]
  rfl

/-- The frames of new tasks fit `switch_context` but for the alignment of the stack, which is
never the one of a called function. -/
theorem initial_frames_misaligned (m : Machine) :
    (∀ (stackBase : Nat) (entry oldRsp : Word), stackBase + stackSize ≤ 2 ^ 64 →
      ¬ (m.start stackBase entry oldRsp).StartsAt entry ∧
      (m.start stackBase entry oldRsp).rsp.toNat % 16 = 0 ∧
      (m.Spares (InRange (BitVec.ofNat 64 stackBase) stackSize)
          (.switch oldRsp (BitVec.ofNat 64 (initialRsp stackBase))) →
        (m.start stackBase entry oldRsp).HasContext (fun _ => 0) 0x202 entry)) ∧
    ∀ (oldRsp newRsp : Word) (activities : List Activity) (lastRsp : Word),
      m.Away oldRsp newRsp activities lastRsp →
      let s := activities.foldl Machine.step (m.switchContext oldRsp newRsp)
      (s.switchContext lastRsp (s.mem.read oldRsp)).HasContext m.regs m.rflags (m.mem.read m.rsp) ∧
        (s.switchContext lastRsp (s.mem.read oldRsp)).rsp = m.rsp + 8 := by
  refine ⟨fun stackBase entry oldRsp hstack => ?_, fun _ _ _ _ => switched_back⟩
  have haligned := start_rsp m stackBase entry oldRsp
  refine ⟨fun hstarts => ?_, haligned, start_resumes hstack entry⟩
  rw [hstarts.2] at haligned
  cases haligned

/-- A task with its stack at 2 MiB is entered with a stack pointer that is a multiple of 16. -/
theorem first_task_misaligned :
    ¬ (Machine.start ⟨fun _ => 0, fun _ => 0, 0x202, 0x9000, 0, 0, 0⟩ 0x200000 0x100000
      0x8000).StartsAt 0x100000 := by
  intro hstarts
  have haligned :=
    start_rsp ⟨fun _ => 0, fun _ => 0, 0x202, 0x9000, 0, 0, 0⟩ 0x200000 0x100000 0x8000
  rw [hstarts.2] at haligned
  cases haligned

end AuraOS.Scheduling
