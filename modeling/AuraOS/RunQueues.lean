import AuraOS.SchedulerSafety

/-!
The run queues of all CPUs, with every section that holds a queue's lock as one
step.  A task is in one queue, or in flight between the two sections of a
`try_steal_task`, until it is reaped.
-/

namespace AuraOS.Scheduling

open DistinctQueues

variable {f : Task → Task} {task : Task} {sched' : CpuScheduler}

structure RunQueues (n : Nat) where
  queues : Fin n → CpuScheduler
  /-- Tasks between the two sections of `try_steal_task`, with the thief. -/
  inFlight : List (Fin n × Task)
  nextTaskId : Nat
  nextKey : Nat

/-- The sections, each with the queue whose lock it holds.  `exit` is the one of
`SYS_EXIT`, of a worker that ends and of the page-fault handler; `wake` and
`countTick` are those of `timer_tick`. -/
inductive LockedSection (n : Nat) where
  | spawn (queue : Fin n) (stackBase : Nat)
  | spawnUser (queue : Fin n) (stackBase cr3 : Nat)
  | yieldNow (queue : Fin n)
  | preemptSchedule (queue : Fin n)
  | stealTask (thief victim : Fin n)
  | finishSteal (entry : Nat)
  | sleep (queue : Fin n) (wakeTick : Nat)
  | exit (queue : Fin n)
  | smpTimerTick (queue : Fin n) (now : Nat)
  | wake (queue : Fin n) (now : Nat)
  | countTick (queue : Fin n)
  | kill (queue : Fin n) (tid : Nat)
  | reap (queue : Fin n)
deriving DecidableEq, Repr

def CpuScheduler.exit (sched : CpuScheduler) : CpuScheduler :=
  sched.modifyAt sched.current (Task.setState .dead)

def CpuScheduler.wakeSleepers (sched : CpuScheduler) (now : Nat) : CpuScheduler :=
  { sched with tasks := sched.tasks.map (Task.wake now) }

def CpuScheduler.countTick (sched : CpuScheduler) : CpuScheduler :=
  sched.modifyAt sched.current Task.countTick

variable {n : Nat}

section Queues

variable (s : RunQueues n)

def RunQueues.setQueue (c : Fin n) (sched : CpuScheduler) : RunQueues n :=
  { s with queues := Function.update s.queues c sched }

def RunQueues.spawnTask (c : Fin n) (task : Task) : RunQueues n :=
  { s.setQueue c ((s.queues c).push task) with
    nextTaskId := (s.nextTaskId + 1) % 2 ^ 64
    nextKey := s.nextKey + 1 }

def RunQueues.stealTask (s : RunQueues n) (thief victim : Fin n) : RunQueues n :=
  match (s.queues victim).stealTask with
  | (none, _) => s
  | (some task, sched) =>
    { s.setQueue victim sched with inFlight := s.inFlight ++ [(thief, task)] }

def RunQueues.finishSteal (entry : Nat) : RunQueues n :=
  match s.inFlight[entry]? with
  | none => s
  | some (thief, task) =>
    { s.setQueue thief ((s.queues thief).push task.resetQuantum) with
      inFlight := s.inFlight.eraseIdx entry }

def RunQueues.step : LockedSection n → RunQueues n
  | .spawn c stackBase => s.spawnTask c (Task.new s.nextTaskId stackBase s.nextKey)
  | .spawnUser c stackBase cr3 =>
    s.spawnTask c (Task.newUser s.nextTaskId stackBase cr3 s.nextKey)
  | .yieldNow c => s.setQueue c (s.queues c).yieldNow.2
  | .preemptSchedule c => s.setQueue c (s.queues c).preemptSchedule.2
  | .stealTask thief victim => if thief = victim then s else s.stealTask thief victim
  | .finishSteal entry => s.finishSteal entry
  | .sleep c wakeTick => s.setQueue c ((s.queues c).sleep wakeTick)
  | .exit c => s.setQueue c (s.queues c).exit
  | .smpTimerTick c now => s.setQueue c ((s.queues c).timerTick now)
  | .wake c now => s.setQueue c ((s.queues c).wakeSleepers now)
  | .countTick c => s.setQueue c (s.queues c).countTick
  | .kill c tid => s.setQueue c ((s.queues c).markDead tid)
  | .reap c => s.setQueue c (s.queues c).reapDeadTasks

def RunQueues.after (sections : List (LockedSection n)) : RunQueues n :=
  sections.foldl RunQueues.step s

def System.runQueues (s : System n) : RunQueues n :=
  ⟨fun c => (s.cpus c).sched, s.stolen, s.nextTaskId, s.nextKey⟩

def RunQueues.boot (n sentinelStack : Nat) : RunQueues n :=
  (System.boot n sentinelStack 0).runQueues

def RunQueues.pool : List Nat :=
  s.inFlight.map fun entry => entry.2.key

def RunQueues.Present (key : Nat) : Prop :=
  (∃ c, key ∈ (s.queues c).keys) ∨ key ∈ s.pool

def CpuScheduler.currentKey (sched : CpuScheduler) : Option Nat :=
  sched.keys[sched.current]?

def RunQueues.Switches (c : Fin n) : LockedSection n → Prop
  | .yieldNow d => d = c ∧ (s.queues c).yieldNow.1.isSome = true
  | .preemptSchedule d => d = c ∧ (s.queues c).preemptSchedule.1.isSome = true
  | _ => False

end Queues

/-- The index of a queue is valid, and only the task there can be running. -/
structure Settled (sched : CpuScheduler) : Prop where
  bound : sched.current < sched.tasks.length
  running : ∀ i task, sched.tasks[i]? = some task → task.state = .running → i = sched.current

/-- A change of tasks that keeps what identifies them and sets none running. -/
structure Calm (f : Task → Task) : Prop where
  core : ∀ task, (f task).core = task.core
  running : ∀ task, (f task).state = .running → task.state = .running

section Settled

variable {sched : CpuScheduler}

theorem calm_setState {state : TaskState} (h : state ≠ .running) : Calm (Task.setState state) :=
  ⟨core_setState state, fun _ hrunning => absurd hrunning h⟩

theorem calm_resetQuantum : Calm Task.resetQuantum :=
  ⟨core_resetQuantum, fun _ => id⟩

theorem calm_countTick : Calm Task.countTick := by
  refine ⟨core_countTick, fun task => ?_⟩
  simp only [Task.countTick]
  split <;> exact id

theorem calm_wake (now : Nat) : Calm (Task.wake now) := by
  refine ⟨core_wake now, fun task => ?_⟩
  simp only [Task.wake]
  split
  · split
    · rintro ⟨⟩
    · exact id
  · exact id

theorem calm_preempted : Calm Task.preempted := by
  refine ⟨core_preempted, fun task => ?_⟩
  simp only [Task.preempted]
  split
  · rintro ⟨⟩
  · exact id

variable (h : Settled sched)
include h

theorem Settled.modifyAt (idx : Nat) (hf : Calm f) : Settled (sched.modifyAt idx f) := by
  refine ⟨by simpa [CpuScheduler.modifyAt] using h.bound, fun i task hget hrunning => ?_⟩
  rw [getElem?_modifyAt] at hget
  split at hget
  · obtain ⟨old, hold, rfl⟩ := Option.map_eq_some_iff.mp hget
    exact h.running i old hold (hf.running old hrunning)
  · exact h.running i task hget hrunning

theorem Settled.map (hf : Calm f) : Settled { sched with tasks := sched.tasks.map f } := by
  refine ⟨by simpa using h.bound, fun i task hget hrunning => ?_⟩
  simp only [List.getElem?_map] at hget
  obtain ⟨old, hold, rfl⟩ := Option.map_eq_some_iff.mp hget
  exact h.running i old hold (hf.running old hrunning)

theorem Settled.push (hstate : task.state ≠ .running) : Settled (sched.push task) := by
  refine ⟨?_, fun i other hget hrunning => ?_⟩
  · rw [tasks_push, current_push, List.length_append]
    exact Nat.lt_add_right _ h.bound
  · rw [tasks_push, List.getElem?_append] at hget
    rw [current_push]
    split at hget
    · exact h.running i other hget hrunning
    · have hmem := List.mem_of_getElem? hget
      rw [List.mem_singleton] at hmem
      exact absurd (hmem ▸ hrunning) hstate

theorem Settled.removeAt {idx : Nat} (hne : idx ≠ sched.current)
    (hidx : idx < sched.tasks.length) : Settled (sched.removeAt idx) := by
  have hbound := h.bound
  refine ⟨?_, fun i task hget hrunning => ?_⟩
  · simp only [CpuScheduler.removeAt, List.length_eraseIdx, if_pos hidx]
    split <;> omega
  · simp only [CpuScheduler.removeAt, List.getElem?_eraseIdx] at hget ⊢
    split at hget
    · have hi := h.running i task hget hrunning
      split <;> omega
    · have hi := h.running (i + 1) task hget hrunning
      split <;> omega

theorem Settled.switchTo (next : Nat) : Settled (sched.switchTo next).2 := by
  simp only [CpuScheduler.switchTo]
  split
  · exact h
  rename_i task hget
  have hlt : next < sched.tasks.length := (List.getElem?_eq_some_iff.mp hget).1
  refine ⟨by simpa [CpuScheduler.modifyAt] using hlt, fun i other hother hrunning => ?_⟩
  by_contra hi
  have hi' : next ≠ i := fun heq => hi heq.symm
  rw [getElem?_modifyAt, if_neg hi'] at hother
  -- the former current task is not running any more, the others never were
  have hcurrent := (h.modifyAt sched.current calm_preempted).running i other hother hrunning
  have hi'' : i = sched.current := hcurrent
  rw [getElem?_modifyAt, if_pos hi''.symm] at hother
  obtain ⟨old, -, rfl⟩ := Option.map_eq_some_iff.mp hother
  simp only [Task.preempted] at hrunning
  split at hrunning
  · cases hrunning
  · contradiction

omit h in
theorem settled_kept : Kept Settled :=
  ⟨fun idx h => h.modifyAt idx calm_resetQuantum, fun _ h => h.switchTo _⟩

theorem Settled.reapFrom (remaining i : Nat) : Settled (CpuScheduler.reapFrom remaining i sched) :=
  reapFrom_induction (fun _ _ _ hget _ hne h =>
    h.removeAt hne (List.getElem?_eq_some_iff.mp hget).1) h remaining i

theorem Settled.markDead (tid : Nat) : Settled (sched.markDead tid) :=
  markDead_of_modifyAt h (fun idx => h.modifyAt idx (calm_setState nofun)) tid

end Settled

section Current

variable {sched : CpuScheduler}

theorem keys_of_cores (h : sched'.cores = sched.cores) : sched'.keys = sched.keys := by
  rw [CpuScheduler.keys, h, CpuScheduler.keys]

theorem length_keys (sched : CpuScheduler) : sched.keys.length = sched.tasks.length := by
  simp [CpuScheduler.keys, CpuScheduler.cores]

theorem mem_keys {key : Nat} : key ∈ sched.keys ↔ ∃ task ∈ sched.tasks, task.key = key := by
  simp [CpuScheduler.keys, CpuScheduler.cores, Task.core]

theorem keys_markDead (tid : Nat) : (sched.markDead tid).keys = sched.keys :=
  markDead_of_modifyAt (P := fun marked => marked.keys = sched.keys) rfl
    (fun idx => keys_of_cores (cores_modifyAt (core_setState .dead) idx)) tid

theorem current_markDead (tid : Nat) : (sched.markDead tid).current = sched.current := by
  simp only [CpuScheduler.markDead]
  split <;> rfl

theorem keys_timerTick (now : Nat) : (sched.timerTick now).keys = sched.keys :=
  keys_of_cores ((cores_map (core_wake now)).trans (cores_modifyAt core_countTick _))

theorem currentKey_of_keys (hkeys : sched'.keys = sched.keys)
    (hcurrent : sched'.current = sched.current) : sched'.currentKey = sched.currentKey := by
  rw [CpuScheduler.currentKey, hkeys, hcurrent, CpuScheduler.currentKey]

theorem currentKey_push (h : Settled sched) (task : Task) :
    (sched.push task).currentKey = sched.currentKey := by
  rw [CpuScheduler.currentKey, keys_push, current_push, CpuScheduler.currentKey,
    List.getElem?_append_left (by rw [length_keys]; exact h.bound)]

theorem currentKey_reapFrom (remaining i : Nat) :
    (CpuScheduler.reapFrom remaining i sched).currentKey = sched.currentKey :=
  reapFrom_induction (P := fun reaped => reaped.currentKey = sched.currentKey)
    (fun _ _ _ _ _ hne h => (keys_removeAt_current hne).trans h) rfl remaining i

theorem mem_reapFrom (h : task ∈ sched.tasks) (remaining i : Nat) :
    task ∈ (CpuScheduler.reapFrom remaining i sched).tasks ∨ task.state = .dead := by
  refine reapFrom_induction (P := fun sched => task ∈ sched.tasks ∨ task.state = .dead)
    ?_ (.inl h) remaining i
  rintro sched idx removed hget hstate - (hmem | hdead)
  · obtain ⟨j, hj⟩ := List.mem_iff_getElem?.mp hmem
    by_cases hji : j = idx
    · rw [hji, hget] at hj
      cases hj
      exact .inr hstate
    · exact .inl (List.mem_eraseIdx_iff_getElem?.mpr ⟨j, hji, hj⟩)
  · exact .inr hdead

end Current

end AuraOS.Scheduling
