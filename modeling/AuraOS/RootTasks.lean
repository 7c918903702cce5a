import AuraOS.TaskEndings

namespace AuraOS.Scheduling

open GuardedRuns

variable {n : Nat} {f : Task → Task} {sched : CpuScheduler} {key idx : Nat} {s : RunQueues n}

def RootIn (sched : CpuScheduler) (key : Nat) : Prop :=
  ∃ task, sched.tasks[0]? = some task ∧ task.key = key ∧ task.state ≠ .dead

def RunQueues.RootsAlive (s : RunQueues n) : Prop :=
  ∀ c, RootIn (s.queues c) c

/-- The section does not end the first task of a queue: `kill_task` takes the first task
that has the id. -/
def RunQueues.SparesRoots (s : RunQueues n) : LockedSection n → Prop
  | .kill c tid => (s.queues c).tasks[0]?.map Task.id ≠ some tid
  | .exit c => (s.queues c).current ≠ 0
  | _ => True

section Queue

variable (h : RootIn sched key)
include h

theorem RootIn.modifyAt (idx : Nat) (hcore : ∀ task, (f task).core = task.core)
    (halive : idx = 0 → ∀ task, task.state ≠ .dead → (f task).state ≠ .dead) :
    RootIn (sched.modifyAt idx f) key := by
  obtain ⟨task, hget, hkey, hstate⟩ := h
  rw [RootIn, getElem?_modifyAt, hget]
  split
  · rename_i hidx
    exact ⟨f task, rfl, (congrArg Core.key (hcore task)).trans hkey, halive hidx task hstate⟩
  · exact ⟨task, rfl, hkey, hstate⟩

theorem RootIn.wake (now : Nat) :
    RootIn { sched with tasks := sched.tasks.map (Task.wake now) } key := by
  obtain ⟨task, hget, hkey, hstate⟩ := h
  refine ⟨task.wake now, by simp [hget], (congrArg Core.key (core_wake now task)).trans hkey, ?_⟩
  simp only [Task.wake]
  split
  · split
    · rintro ⟨⟩
    · exact hstate
  · exact hstate

omit h in
theorem alive_resetQuantum (task : Task) (h : task.state ≠ .dead) :
    task.resetQuantum.state ≠ .dead := h

omit h in
theorem alive_countTick (task : Task) (h : task.state ≠ .dead) : task.countTick.state ≠ .dead := by
  simp only [Task.countTick]
  split <;> exact h

omit h in
theorem alive_preempted (task : Task) (h : task.state ≠ .dead) : task.preempted.state ≠ .dead := by
  simp only [Task.preempted]
  split
  · rintro ⟨⟩
  · exact h

theorem RootIn.push (task : Task) : RootIn (sched.push task) key := by
  obtain ⟨root, hget, hroot⟩ := h
  refine ⟨root, ?_, hroot⟩
  rw [tasks_push, List.getElem?_append_left (List.getElem?_eq_some_iff.mp hget).1, hget]

theorem RootIn.removeAt (hidx : idx ≠ 0) : RootIn (sched.removeAt idx) key := by
  obtain ⟨root, hget, hroot⟩ := h
  refine ⟨root, ?_, hroot⟩
  rw [CpuScheduler.removeAt, List.getElem?_eraseIdx_of_lt (Nat.pos_of_ne_zero hidx), hget]

theorem RootIn.switchTo (next : Nat) : RootIn (sched.switchTo next).2 key := by
  rw [CpuScheduler.switchTo]
  split
  · exact h
  · exact (h.modifyAt _ core_preempted fun _ => alive_preempted).modifyAt next (core_setState _)
      fun _ _ _ => by rintro ⟨⟩

omit h in
theorem rootIn_kept (key : Nat) : Kept (RootIn · key) :=
  ⟨fun idx h => h.modifyAt idx core_resetQuantum fun _ => alive_resetQuantum,
    fun _ h => h.switchTo _⟩

theorem RootIn.markDead_iff (tid : Nat) :
    RootIn (sched.markDead tid) key ↔ sched.tasks[0]?.map Task.id ≠ some tid := by
  obtain ⟨root, hget, hkey, hstate⟩ := id h
  rw [hget, Option.map_some, ne_eq, Option.some.injEq, CpuScheduler.markDead]
  constructor
  · intro hmarked hid
    have hfirst : sched.tasks.findIdx? (fun task => task.id = tid) = some 0 := by
      rw [List.findIdx?_eq_some_iff_getElem]
      obtain ⟨hlt, hroot⟩ := List.getElem?_eq_some_iff.mp hget
      exact ⟨hlt, by simp [hroot, hid], by simp⟩
    rw [hfirst] at hmarked
    obtain ⟨task, hdead, -, halive⟩ := hmarked
    rw [getElem?_modifyAt, if_pos rfl, hget] at hdead
    cases hdead
    exact halive rfl
  · intro hne
    split
    · exact h
    · rename_i idx hidx
      refine h.modifyAt idx (core_setState _) fun hzero => ?_
      obtain ⟨hlt, hid, -⟩ := List.findIdx?_eq_some_iff_getElem.mp hidx
      subst hzero
      rw [List.getElem?_eq_getElem hlt, Option.some.injEq] at hget
      exact absurd (hget ▸ of_decide_eq_true hid) hne

theorem RootIn.reapFrom (remaining i : Nat) :
    RootIn (CpuScheduler.reapFrom remaining i sched) key := by
  refine reapFrom_induction (P := fun sched => RootIn sched key) ?_ h remaining i
  intro sched idx task hget hdead _ hroot
  refine hroot.removeAt ?_
  rintro rfl
  obtain ⟨root, hroot, -, halive⟩ := hroot
  rw [hget] at hroot
  cases hroot
  exact halive hdead

end Queue

section Steps

theorem RunQueues.RootsAlive.setQueue (h : s.RootsAlive) {c : Fin n} (hsched : RootIn sched c) :
    (s.setQueue c sched).RootsAlive :=
  (forall_setQueue (P := fun d sched => RootIn sched d)).mpr ⟨hsched, fun d _ => h d⟩

theorem RunQueues.RootsAlive.step (h : s.RootsAlive) (e : LockedSection n)
    (hspares : s.SparesRoots e) : (s.step e).RootsAlive := by
  cases e with
  | spawn c _ | spawnUser c _ _ => exact h.setQueue ((h c).push _)
  | yieldNow c => exact h.setQueue ((rootIn_kept c).yieldNow (h c))
  | preemptSchedule c => exact h.setQueue ((rootIn_kept c).preemptSchedule (h c))
  | stealTask thief victim =>
    rcases step_stealTask_cases s thief victim with hsame | ⟨idx, task, -, hzero, -, -, hstep⟩
    · rwa [hsame]
    · rw [hstep]
      exact h.setQueue ((h victim).removeAt hzero)
  | finishSteal entry =>
    rcases step_finishSteal_cases s entry with hsame | ⟨thief, task, -, hstep⟩
    · rwa [hsame]
    · rw [hstep]
      exact h.setQueue ((h thief).push _)
  | sleep c wakeTick =>
    exact h.setQueue ((h c).modifyAt _ (core_setState _) fun _ _ _ => nofun)
  | exit c =>
    exact h.setQueue ((h c).modifyAt _ (core_setState _) fun hzero => absurd hzero hspares)
  | smpTimerTick c now =>
    exact h.setQueue (((h c).modifyAt _ core_countTick fun _ => alive_countTick).wake now)
  | wake c now => exact h.setQueue ((h c).wake now)
  | countTick c => exact h.setQueue ((h c).modifyAt _ core_countTick fun _ => alive_countTick)
  | kill c tid => exact h.setQueue (((h c).markDead_iff tid).mpr hspares)
  | reap c => exact h.setQueue ((h c).reapFrom _ _)

theorem sparesRoots_of_rootsAlive (h : s.RootsAlive) {e : LockedSection n}
    (hafter : (s.step e).RootsAlive) : s.SparesRoots e := by
  cases e with
  | kill c tid =>
    have hroot := hafter c
    rw [show (s.step (.kill c tid)).queues c = _ from setQueue_queues_self c _] at hroot
    exact ((h c).markDead_iff tid).mp hroot
  | exit c =>
    intro hzero
    obtain ⟨task, hget, -, halive⟩ := hafter c
    rw [show (s.step (.exit c)).queues c = _ from setQueue_queues_self c _, CpuScheduler.exit,
      getElem?_modifyAt, if_pos hzero] at hget
    obtain ⟨old, -, rfl⟩ := Option.map_eq_some_iff.mp hget
    exact halive rfl
  | _ => trivial

theorem rootsAlive_boot (n sentinelStack : Nat) : (RunQueues.boot n sentinelStack).RootsAlive := by
  intro c
  refine ⟨Task.rootForCpu c c, ?_, rfl, nofun⟩
  simp only [RunQueues.boot, System.runQueues, System.boot]
  split <;> rfl

end Steps

theorem killTask_found {c : Fin n} {task : Task} (h : task ∈ (s.queues c).tasks)
    (last : List (LockedSection n)) : (s.killTask task.id (fun _ => []) last).1 = true := by
  obtain ⟨searched, rest, hcpus⟩ := List.append_of_mem (List.mem_finRange c)
  refine killFrom_found_iff.mpr ⟨searched, c, rest, hcpus, ?_⟩
  have hnone : (searched ++ [c]).flatMap (fun _ => ([] : List (LockedSection n))) = [] := by simp
  rw [hnone]
  exact List.mem_map_of_mem h

/-- In every interleaving, on any number of CPUs, the first task of every queue is the root
task of its CPU and not dead, exactly if no `kill_task` section meets a root task with its
id and no root task exits.  A `kill_task` call with the id of a first task says that it
ended a task. -/
theorem roots_survive_iff (n sentinelStack : Nat) (sections : List (LockedSection n)) :
    (Guarded RunQueues.step RunQueues.SparesRoots (RunQueues.boot n sentinelStack) sections ↔
      ∀ k, ((RunQueues.boot n sentinelStack).after (sections.take k)).RootsAlive) ∧
    ∀ (c : Fin n) (root : Task) (last : List (LockedSection n)),
      let s := (RunQueues.boot n sentinelStack).after sections
      (s.queues c).tasks[0]? = some root →
        (s.killTask root.id (fun _ => []) last).1 = true := by
  constructor
  · exact guarded_iff_forall_take (fun _ e h hspares => h.step e hspares) (fun _ h => h)
      (fun _ _ h hafter => sparesRoots_of_rootsAlive h hafter) (rootsAlive_boot n sentinelStack)
  · intro c root last s hroot
    exact killTask_found (List.mem_of_getElem? hroot) last

/-- `kill_task(1001)` while CPU 1 executes another task: its root task is reaped. -/
def killRootOfCpuOne : List (LockedSection 2) :=
  [.spawn 1 0x30000, .yieldNow 1, .kill 0 1001, .kill 1 1001, .reap 1]

theorem root_task_reaped :
    (((RunQueues.boot 2 0x20000).after killRootOfCpuOne).queues 1).tasks.map Task.id = [2] ∧
      (((RunQueues.boot 2 0x20000).after (killRootOfCpuOne.take 2)).killTask 1001 (fun _ => [])
        []).1 = true := by
  decide

end AuraOS.Scheduling
