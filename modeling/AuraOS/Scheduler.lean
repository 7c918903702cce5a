import Mathlib

/-!
The per-CPU schedulers.  Every section that holds a scheduler's lock is one
event, and so is each of the two steps that `yield_now` and
`preempt_schedule_on_cpu` take after releasing it: `on_context_switch` and
`switch_context`.  `yield_now` and `sleep_ticks` read the number of their CPU while
interrupts are on, so their task may go on elsewhere, and such an event names the CPU
that executes it apart from the queue it acts on.  A run is any sequence of events.
-/

namespace AuraOS.Scheduling

-- for runs on two processors
scoped instance neZeroTwo : NeZero 2 := ⟨by decide⟩

inductive TaskState where
  | ready
  | running
  | sleeping (wakeTick : Nat)
  | dead
  deriving DecidableEq, Repr

def defaultQuantum : Nat := 10

def stackSize : Nat := 16 * 1024

def initialRsp (stackBase : Nat) : Nat :=
  (stackBase + stackSize) / 16 * 16 - 8 - 72

structure Task where
  id : Nat
  rsp : Nat
  state : TaskState
  quantumRemaining : Nat
  quantum : Nat
  isUser : Bool
  cr3 : Option Nat
  kernelStackTop : Nat
  /-- Tells the tasks apart.  Not in the source, where the ids of the root tasks
  are given once more to spawned ones. -/
  key : Nat
  deriving DecidableEq, Repr

def Task.new (id stackBase key : Nat) : Task where
  id := id
  rsp := initialRsp stackBase
  state := .ready
  quantumRemaining := defaultQuantum
  quantum := defaultQuantum
  isUser := false
  cr3 := none
  kernelStackTop := 0
  key := key

def Task.newUser (id stackBase cr3 key : Nat) : Task :=
  { Task.new id stackBase key with
    isUser := true
    cr3 := some cr3
    kernelStackTop := stackBase + stackSize }

def Task.rootForCpu (cpu key : Nat) : Task where
  id := if cpu = 0 then 0 else 1000 + cpu
  rsp := 0
  state := .running
  quantumRemaining := defaultQuantum
  quantum := defaultQuantum
  isUser := false
  cr3 := none
  kernelStackTop := 0
  key := key

def Task.setState (state : TaskState) (task : Task) : Task :=
  { task with state := state }

def Task.preempted (task : Task) : Task :=
  if task.state = .running then task.setState .ready else task

def Task.resetQuantum (task : Task) : Task :=
  { task with quantumRemaining := task.quantum }

def Task.countTick (task : Task) : Task :=
  if 0 < task.quantumRemaining then
    { task with quantumRemaining := task.quantumRemaining - 1 }
  else task

def Task.wake (now : Nat) (task : Task) : Task :=
  match task.state with
  | .sleeping wakeTick => if wakeTick ≤ now then task.setState .ready else task
  | _ => task

/-- A place in the buffer of a task vector, as a raw pointer names it. -/
structure Slot where
  buffer : Nat
  index : Nat
  deriving DecidableEq, Repr

/-- A run queue.  Of the task vector the capacity and the number of the buffer
are kept: a push beyond the capacity moves the tasks to another buffer. -/
structure CpuScheduler where
  tasks : List Task
  current : Nat
  capacity : Nat
  buffer : Nat

section Queue

variable (sched : CpuScheduler)

def CpuScheduler.push (task : Task) : CpuScheduler :=
  if sched.tasks.length < sched.capacity then
    { sched with tasks := sched.tasks ++ [task] }
  else
    { sched with
      tasks := sched.tasks ++ [task]
      capacity := max 4 (max (sched.capacity * 2) (sched.tasks.length + 1))
      buffer := sched.buffer + 1 }

/-- `Vec::remove` with the correction of the current index. -/
def CpuScheduler.removeAt (idx : Nat) : CpuScheduler :=
  { sched with
    tasks := sched.tasks.eraseIdx idx
    current := if idx < sched.current then sched.current - 1 else sched.current }

def CpuScheduler.modifyAt (idx : Nat) (f : Task → Task) : CpuScheduler :=
  { sched with tasks := sched.tasks.modify idx f }

def CpuScheduler.isReady (idx : Nat) : Bool :=
  sched.tasks[idx]?.any fun task => task.state = .ready

def CpuScheduler.pickNext : Option Nat :=
  if sched.tasks.isEmpty then none
  else
    let total := sched.tasks.length
    match (List.range total).find? fun i => sched.isReady ((sched.current + (i + 1)) % total) with
    | some i => some ((sched.current + (i + 1)) % total)
    | none =>
      match sched.tasks[sched.current]? with
      | some task =>
        if task.state = .running ∨ task.state = .ready then some sched.current else none
      | none => none

structure Switch where
  oldRsp : Slot
  newRsp : Nat
  isUser : Bool
  kstack : Nat
  cr3 : Option Nat
  /-- The task that is switched to. -/
  nextKey : Nat
  deriving DecidableEq, Repr

/-- The common end of `yield_now` and `preempt_schedule_on_cpu` once the next
task is chosen. -/
def CpuScheduler.switchTo (next : Nat) : Option Switch × CpuScheduler :=
  match sched.tasks[next]? with
  | none => (none, sched)
  | some task =>
    (some ⟨⟨sched.buffer, sched.current⟩, task.rsp, task.isUser, task.kernelStackTop, task.cr3,
        task.key⟩,
      { (sched.modifyAt sched.current Task.preempted).modifyAt next (Task.setState .running) with
        current := next })

def CpuScheduler.yieldNow : Option Switch × CpuScheduler :=
  if sched.tasks.length < 2 then (none, sched)
  else
    match sched.pickNext with
    | none => (none, sched)
    | some next => if next = sched.current then (none, sched) else sched.switchTo next

def CpuScheduler.preemptSchedule : Option Switch × CpuScheduler :=
  if sched.tasks.length < 2 then (none, sched)
  else
    match sched.tasks[sched.current]? with
    | none => (none, sched)
    | some task =>
      if 0 < task.quantumRemaining then (none, sched)
      else
        let sched := sched.modifyAt sched.current Task.resetQuantum
        match sched.pickNext with
        | none => (none, sched)
        | some next =>
          if next = sched.current then (none, sched)
          else
            let (result, sched) := sched.switchTo next
            (result, sched.modifyAt next Task.resetQuantum)

/-- The task that `try_steal_task` takes from a victim: not the first, not the
current one, not a user task. -/
def CpuScheduler.stealIndex : Option Nat :=
  if 2 < sched.tasks.length then
    (List.range sched.tasks.length).find? fun i =>
      i ≠ 0 && i ≠ sched.current &&
        sched.tasks[i]?.any fun task => task.state = .ready && !task.isUser
  else none

def CpuScheduler.stealTask : Option Task × CpuScheduler :=
  match sched.stealIndex with
  | none => (none, sched)
  | some idx => (sched.tasks[idx]?, sched.removeAt idx)

/-- The marking section of `kill_task`. -/
def CpuScheduler.markDead (tid : Nat) : CpuScheduler :=
  match sched.tasks.findIdx? fun task => task.id = tid with
  | none => sched
  | some idx => sched.modifyAt idx (Task.setState .dead)

/-- The loop of `reap_dead_tasks_on_cpu`; every round either goes on by one task
or removes one. -/
def CpuScheduler.reapFrom : Nat → Nat → CpuScheduler → CpuScheduler
  | 0, _, sched => sched
  | remaining + 1, i, sched =>
    if i = sched.current then CpuScheduler.reapFrom remaining (i + 1) sched
    else if sched.tasks[i]?.any fun task => task.state = .dead then
      CpuScheduler.reapFrom remaining i (sched.removeAt i)
    else CpuScheduler.reapFrom remaining (i + 1) sched

def CpuScheduler.reapDeadTasks : CpuScheduler :=
  CpuScheduler.reapFrom sched.tasks.length 0 sched

/-- The first section of `smp_timer_tick`. -/
def CpuScheduler.timerTick (now : Nat) : CpuScheduler :=
  let sched := sched.modifyAt sched.current Task.countTick
  { sched with tasks := sched.tasks.map (Task.wake now) }

/-- The section of `sleep_ticks` before its loop. -/
def CpuScheduler.sleep (target : Nat) : CpuScheduler :=
  sched.modifyAt sched.current (Task.setState (.sleeping target))

/-- The task whose field a raw pointer names.  After a move of the tasks it
points into a freed buffer. -/
def CpuScheduler.taskAt (slot : Slot) : Option Task :=
  if slot.buffer = sched.buffer then sched.tasks[slot.index]? else none

def CpuScheduler.writeRsp (slot : Slot) (rsp : Nat) : CpuScheduler :=
  if slot.buffer = sched.buffer then
    sched.modifyAt slot.index fun task => { task with rsp := rsp }
  else sched

end Queue

/-- A CPU with its queue.  Besides the switch it is in the middle of, the state
has two facts that the code does not record. -/
structure Cpu (n : Nat) where
  sched : CpuScheduler
  switch : Option Switch
  /-- The queue into whose tasks the switch points. -/
  queue : Fin n
  /-- `on_context_switch` has run for the switch. -/
  loaded : Bool
  /-- The task on whose stack the CPU runs. -/
  running : Nat
  /-- The task whose page tables are loaded, if they are not the kernel's. -/
  space : Option Nat

structure System (n : Nat) where
  cpus : Fin n → Cpu n
  /-- Tasks between the two sections of `try_steal_task`, with the queue they go to. -/
  stolen : List (Fin n × Task)
  nextTaskId : Nat
  kernelCr3 : Nat
  nextKey : Nat
  /-- The stack pointer of each task at its last suspension, or the initial one. -/
  saved : Nat → Nat

def System.setCpu {n : Nat} (s : System n) (c : Fin n) (cpu : Cpu n) :
    System n :=
  { s with cpus := Function.update s.cpus c cpu }

def System.setSched {n : Nat} (s : System n) (c : Fin n) (sched : CpuScheduler) : System n :=
  s.setCpu c { s.cpus c with sched := sched }

/-- The CPU is not between a scheduling section and the switch of the stacks. -/
def System.Free {n : Nat} (s : System n) (c : Fin n) : Prop :=
  (s.cpus c).switch = none

instance {n : Nat} (s : System n) (c : Fin n) : Decidable (s.Free c) :=
  inferInstanceAs (Decidable (_ = none))

/-- The sections and steps, each with the CPU that executes it first; `queue` is the one
whose number the caller has read as its own. -/
inductive Event (n : Nat) where
  | yieldNow (cpu queue : Fin n)
  | preemptSchedule (cpu : Fin n)
  | onContextSwitch (cpu : Fin n)
  | switchContext (cpu : Fin n) (rsp : Nat)
  | steal (cpu queue victim : Fin n)
  | receive (cpu : Fin n) (entry : Nat)
  | kill (cpu target : Fin n) (tid : Nat)
  | reap (cpu target : Fin n)
  | spawn (cpu target : Fin n) (stackBase : Nat)
  | spawnUser (cpu target : Fin n) (stackBase cr3 : Nat)
  | timerTick (cpu : Fin n) (now : Nat)
  | wake (cpu target : Fin n) (now : Nat)
  | sleep (cpu queue : Fin n) (target : Nat)

section Steps

variable {n : Nat}

/-- CPU `p` has gone through a scheduling section of queue `c`. -/
def System.schedule (s : System n) (p c : Fin n) (result : Option Switch × CpuScheduler) :
    System n :=
  let s := s.setSched c result.2
  match result.1 with
  | none => s
  | some switch =>
    s.setCpu p { s.cpus p with switch := some switch, queue := c, loaded := false }

/-- `on_context_switch` as far as it concerns the page tables. -/
def System.onContextSwitch (s : System n) (c : Fin n) : System n :=
  match (s.cpus c).switch with
  | none => s
  | some switch =>
    let space :=
      if switch.isUser then
        if switch.cr3.isSome then some switch.nextKey else (s.cpus c).space
      else if s.kernelCr3 ≠ 0 then none
      else (s.cpus c).space
    s.setCpu c { s.cpus c with loaded := true, space := space }

/-- `switch_context`: the stack pointer is written through the pointer taken in the
section, and the CPU goes on with the other stack. -/
def System.switchContext (s : System n) (c : Fin n) (rsp : Nat) : System n :=
  match (s.cpus c).switch with
  | none => s
  | some switch =>
    if (s.cpus c).loaded then
      let queue := (s.cpus c).queue
      let written := s.setSched queue ((s.cpus queue).sched.writeRsp switch.oldRsp rsp)
      { written.setCpu c { written.cpus c with switch := none, running := switch.nextKey } with
        saved := Function.update s.saved (s.cpus c).running rsp }
    else s

def System.steal (s : System n) (c victim : Fin n) : System n :=
  let (task, sched) := (s.cpus victim).sched.stealTask
  match task with
  | none => s
  | some task => { s.setSched victim sched with stolen := s.stolen ++ [(c, task)] }

/-- The second section of `try_steal_task`. -/
def System.receive (s : System n) (entry : Nat) : System n :=
  match s.stolen[entry]? with
  | none => s
  | some (c, task) =>
    { s.setSched c ((s.cpus c).sched.push task.resetQuantum) with
      stolen := s.stolen.eraseIdx entry }

/-- `spawn` and its variants: the id is taken, the task is built and pushed. -/
def System.spawnTask (s : System n) (target : Fin n) (task : Task) : System n :=
  { s.setSched target ((s.cpus target).sched.push task) with
    nextTaskId := (s.nextTaskId + 1) % 2 ^ 64
    nextKey := s.nextKey + 1
    saved := Function.update s.saved task.key task.rsp }

/-- The CPU that an event runs on may take it: before the switch of the stacks
only the two steps of the switch itself. -/
def System.step (s : System n) : Event n → System n
  | .yieldNow p c => if s.Free p then s.schedule p c (s.cpus c).sched.yieldNow else s
  | .preemptSchedule c =>
    if s.Free c then s.schedule c c (s.cpus c).sched.preemptSchedule else s
  | .onContextSwitch c => s.onContextSwitch c
  | .switchContext c rsp => s.switchContext c rsp
  | .steal p c victim => if s.Free p ∧ c ≠ victim then s.steal c victim else s
  | .receive p entry => if s.Free p then s.receive entry else s
  | .kill c target tid =>
    if s.Free c then s.setSched target ((s.cpus target).sched.markDead tid) else s
  | .reap c target =>
    if s.Free c then s.setSched target (s.cpus target).sched.reapDeadTasks else s
  | .spawn c target stackBase =>
    if s.Free c then s.spawnTask target (Task.new s.nextTaskId stackBase s.nextKey) else s
  | .spawnUser c target stackBase cr3 =>
    if s.Free c then s.spawnTask target (Task.newUser s.nextTaskId stackBase cr3 s.nextKey)
    else s
  | .timerTick c now => if s.Free c then s.setSched c ((s.cpus c).sched.timerTick now) else s
  | .wake c target now =>
    if s.Free c then
      let sched := (s.cpus target).sched
      s.setSched target { sched with tasks := sched.tasks.map (Task.wake now) }
    else s
  | .sleep p c target => if s.Free p then s.setSched c ((s.cpus c).sched.sleep target) else s

/-- The state in which all CPUs are online: the boot CPU with its root task and
the sentinel, every other one with its root task. -/
def System.boot (n sentinelStack kernelCr3 : Nat) : System n where
  cpus := fun c =>
    let root := Task.rootForCpu c c
    ⟨⟨if c.val = 0 then [root, Task.new 1 sentinelStack n] else [root], 0, 4, 0⟩, none, c, false,
      c, none⟩
  stolen := []
  nextTaskId := 2
  kernelCr3 := kernelCr3
  nextKey := n + 1
  saved := fun key => if key = n then initialRsp sentinelStack else 0

end Steps

end AuraOS.Scheduling
