import AuraOS.TaskConservation

namespace AuraOS.Scheduling

open GuardedRuns DistinctQueues

variable {f : Task → Task} {idx : Nat} {task : Task}

variable {n : Nat}

def RunQueues.Has (s : RunQueues n) (task : Task) : Prop :=
  (∃ c, task ∈ (s.queues c).tasks) ∨ ∃ thief, (thief, task) ∈ s.inFlight

def RunQueues.Dead (s : RunQueues n) (key : Nat) : Prop :=
  ∃ task, s.Has task ∧ task.key = key ∧ task.state = .dead

def RunQueues.NotAlive (s : RunQueues n) (key : Nat) : Prop :=
  ∀ task, s.Has task → task.key = key → task.state = .dead

/-- `pick_next` chooses the task with this key in no queue. -/
def RunQueues.NotChosen (s : RunQueues n) (key : Nat) : Prop :=
  ∀ c idx task, (s.queues c).pickNext = some idx → (s.queues c).tasks[idx]? = some task →
    task.key ≠ key

def RunQueues.SleepsAlive (s : RunQueues n) : LockedSection n → Prop
  | .sleep c _ => ∀ task, (s.queues c).tasks[(s.queues c).current]? = some task →
      task.state ≠ .dead
  | _ => True

section Queue

variable {P : TaskState → Prop} {sched : CpuScheduler} {key : Nat}

structure Resting (P : TaskState → Prop) : Prop where
  ready : ¬ P .ready
  running : ¬ P .running
  dead : P .dead

theorem resting_dead : Resting (· = .dead) :=
  ⟨nofun, nofun, rfl⟩

def RestsIn (P : TaskState → Prop) (sched : CpuScheduler) (key : Nat) : Prop :=
  ∀ task ∈ sched.tasks, task.key = key → P task.state

structure Keeps (P : TaskState → Prop) (f : Task → Task) : Prop where
  core : ∀ task, (f task).core = task.core
  state : ∀ task, P task.state → P (f task).state

theorem Keeps.same_key (h : Keeps P f) (task : Task) : (f task).key = task.key :=
  congrArg Core.key (h.core task)

theorem keeps_setDead (hP : Resting P) : Keeps P (Task.setState .dead) :=
  ⟨core_setState .dead, fun _ _ => hP.dead⟩

theorem keeps_resetQuantum : Keeps P Task.resetQuantum :=
  ⟨core_resetQuantum, fun _ => id⟩

theorem keeps_countTick : Keeps P Task.countTick := by
  refine ⟨core_countTick, fun task => ?_⟩
  simp only [Task.countTick]
  split <;> exact id

theorem keeps_wake {now : Nat} (h : ∀ wakeTick ≤ now, ¬ P (.sleeping wakeTick)) :
    Keeps P (Task.wake now) := by
  refine ⟨core_wake now, fun task hstate => ?_⟩
  simp only [Task.wake]
  split
  · rename_i wakeTick hsleeping
    split
    · rename_i hdue
      exact absurd (hsleeping ▸ hstate) (h wakeTick hdue)
    · exact hstate
  · exact hstate

theorem keeps_preempted (hP : Resting P) : Keeps P Task.preempted := by
  refine ⟨core_preempted, fun task hstate => ?_⟩
  have hrunning : task.state ≠ .running := fun heq => hP.running (heq ▸ hstate)
  rwa [Task.preempted, if_neg hrunning]

variable (h : RestsIn P sched key)
include h

theorem RestsIn.modifyAt (idx : Nat) (hf : Keeps P f) : RestsIn P (sched.modifyAt idx f) key := by
  intro task hmem hkey
  rcases mem_modifyAt hmem with hold | ⟨old, hold, rfl⟩
  · exact h task hold hkey
  · exact hf.state old (h old hold ((hf.same_key old).symm.trans hkey))

theorem RestsIn.map (hf : Keeps P f) : RestsIn P { sched with tasks := sched.tasks.map f } key := by
  intro task hmem hkey
  obtain ⟨old, hold, rfl⟩ := List.mem_map.mp hmem
  exact hf.state old (h old hold ((hf.same_key old).symm.trans hkey))

theorem RestsIn.setState (hget : sched.tasks[idx]? = some task) (hne : task.key ≠ key)
    (state : TaskState) : RestsIn P (sched.modifyAt idx (Task.setState state)) key := by
  intro other hmem hkey
  obtain ⟨i, hi⟩ := List.mem_iff_getElem?.mp hmem
  rw [getElem?_modifyAt] at hi
  split at hi
  · rename_i hidx
    rw [← hidx, hget] at hi
    cases hi
    exact absurd hkey hne
  · exact h other (List.mem_of_getElem? hi) hkey

theorem RestsIn.push (hne : task.key ≠ key) : RestsIn P (sched.push task) key := by
  intro other hmem hkey
  rw [tasks_push, List.mem_append, List.mem_singleton] at hmem
  rcases hmem with hmem | rfl
  · exact h other hmem hkey
  · exact absurd hkey hne

theorem RestsIn.switchTo (hP : Resting P) {next : Nat}
    (hgoes : sched.GoesOn next task) : RestsIn P (sched.switchTo next).2 key := by
  simp only [CpuScheduler.switchTo, hgoes.get]
  have hpreempted := h.modifyAt sched.current (keeps_preempted hP)
  have hget : (sched.modifyAt sched.current Task.preempted).tasks[next]? = some task := by
    rw [getElem?_modifyAt, if_neg hgoes.other.symm, hgoes.get]
  refine hpreempted.setState hget (fun hkey => hP.ready ?_) .running
  exact hgoes.ready ▸ h task (List.mem_of_getElem? hgoes.get) hkey

omit h in
theorem restsIn_kept (hP : Resting P) (key : Nat) : Kept (RestsIn P · key) :=
  ⟨fun idx h => h.modifyAt idx keeps_resetQuantum, fun hgoes h => h.switchTo hP hgoes⟩

theorem RestsIn.markDead (hP : Resting P) (tid : Nat) : RestsIn P (sched.markDead tid) key :=
  markDead_of_modifyAt (P := (RestsIn P · key)) h (fun idx => h.modifyAt idx (keeps_setDead hP)) tid

end Queue

section Steps

variable {P : TaskState → Prop} {s : RunQueues n} {key : Nat}

def RunQueues.Rests (P : TaskState → Prop) (s : RunQueues n) (key : Nat) : Prop :=
  ∀ task, s.Has task → task.key = key → P task.state

def RunQueues.Permits (P : TaskState → Prop) (key : Nat) (s : RunQueues n) : LockedSection n → Prop
  | .smpTimerTick _ now | .wake _ now => ∀ wakeTick ≤ now, ¬ P (.sleeping wakeTick)
  | .sleep c _ => ∀ task, (s.queues c).tasks[(s.queues c).current]? = some task → task.key ≠ key
  | _ => True

theorem notAlive_iff_rests : s.NotAlive key ↔ s.Rests (· = .dead) key :=
  Iff.rfl

theorem rests_iff :
    s.Rests P key ↔ (∀ c, RestsIn P (s.queues c) key) ∧
      ∀ entry ∈ s.inFlight, entry.2.key = key → P entry.2.state := by
  constructor
  · intro h
    exact ⟨fun c task hmem => h task (.inl ⟨c, hmem⟩),
      fun entry hmem => h entry.2 (.inr ⟨entry.1, hmem⟩)⟩
  · rintro ⟨hqueues, hflight⟩ task (⟨c, hmem⟩ | ⟨thief, hmem⟩)
    · exact hqueues c task hmem
    · exact hflight _ hmem

theorem RunQueues.Rests.setQueue (h : s.Rests P key) (c : Fin n) {sched : CpuScheduler}
    (hsched : RestsIn P sched key) : (s.setQueue c sched).Rests P key := by
  obtain ⟨hqueues, hflight⟩ := rests_iff.mp h
  refine rests_iff.mpr ⟨(forall_setQueue (P := fun _ sched => RestsIn P sched key)).mpr ?_, hflight⟩
  exact ⟨hsched, fun d _ => hqueues d⟩

theorem Conserved.eq_of_key (hs : Conserved s) {c : Fin n} {other : Task}
    (hmem : task ∈ (s.queues c).tasks) (hhas : s.Has other) (hsame : other.key = task.key) :
    other = task := by
  have hkeys : task.key ∈ (s.queues c).keys := mem_keys.mpr ⟨task, hmem, rfl⟩
  rcases hhas with ⟨d, hother⟩ | ⟨thief, hother⟩
  · have hdc : d = c :=
      hs.distinct.queue_unique d c task.key (mem_keys.mpr ⟨other, hother, hsame⟩) hkeys
    subst hdc
    obtain ⟨i, hi⟩ := List.mem_iff_getElem?.mp hmem
    obtain ⟨j, hj⟩ := List.mem_iff_getElem?.mp hother
    have hij : i = j := by
      refine position_unique (hs.distinct.queue_nodup d) (k := task.key) ?_ ?_
      · rw [getElem?_keys, hi, Option.map_some]
      · rw [getElem?_keys, hj, Option.map_some, hsame]
    rw [hij, hj] at hi
    exact Option.some.inj hi
  · refine absurd ?_ (hs.distinct.pool_disjoint c task.key hkeys)
    exact List.mem_map.mpr ⟨_, hother, hsame⟩

theorem notAlive_of_dead (hs : Conserved s) (h : s.Dead key) : s.NotAlive key := by
  obtain ⟨task, ⟨c, hmem⟩ | ⟨thief, hflight⟩, rfl, hdead⟩ := h
  · intro other hhas hsame
    rwa [hs.eq_of_key hmem hhas hsame]
  · exact absurd (hs.ready _ hflight) (by simp [hdead])

theorem RunQueues.Rests.notChosen (h : s.Rests P key) (hP : Resting P) : s.NotChosen key := by
  intro c idx task hpick hget hkey
  obtain ⟨chosen, hchosen, hstate⟩ := pickNext_spec hpick
  rw [hget] at hchosen
  cases hchosen
  have hrests := h task (.inl ⟨c, List.mem_of_getElem? hget⟩) hkey
  rcases hstate with hready | ⟨-, hrunning⟩
  · exact hP.ready (hready ▸ hrests)
  · exact hP.running (hrunning ▸ hrests)

theorem RunQueues.Rests.step (h : s.Rests P key) (hP : Resting P) (hs : Conserved s)
    (hlt : key < s.nextKey) (e : LockedSection n) (hpermits : s.Permits P key e) :
    (s.step e).Rests P key := by
  obtain ⟨hqueues, hflight⟩ := rests_iff.mp h
  have hnew : s.nextKey ≠ key := fun heq => Nat.lt_irrefl _ (heq ▸ hlt)
  cases e with
  | spawn c stackBase => exact h.setQueue c ((hqueues c).push hnew)
  | spawnUser c stackBase cr3 => exact h.setQueue c ((hqueues c).push hnew)
  | yieldNow c => exact h.setQueue c ((restsIn_kept hP key).yieldNow (hqueues c))
  | preemptSchedule c =>
    exact h.setQueue c ((restsIn_kept hP key).preemptSchedule (hqueues c))
  | stealTask thief victim =>
    rcases step_stealTask_cases s thief victim with hsame | ⟨idx, task, hget, -, -, -, hstep⟩
    · rwa [hsame]
    · rw [hstep]
      have hmem := List.mem_of_getElem? hget
      have hshrunk : RestsIn P ((s.queues victim).removeAt idx) key := fun other hother =>
        hqueues victim other ((List.eraseIdx_sublist _ _).subset hother)
      refine rests_iff.mpr ⟨(rests_iff.mp (h.setQueue victim hshrunk)).1, ?_⟩
      intro entry hentry
      rcases List.mem_append.mp hentry with hentry | hentry
      · exact hflight entry hentry
      · rw [List.mem_singleton] at hentry
        rw [hentry]
        exact hqueues victim task hmem
  | finishSteal entry =>
    rcases step_finishSteal_cases s entry with hsame | ⟨thief, task, hget, hstep⟩
    · rwa [hsame]
    · rw [hstep]
      have hmem := List.mem_of_getElem? hget
      have hne : task.resetQuantum.key ≠ key := fun hkey =>
        hP.ready (hs.ready _ hmem ▸ hflight _ hmem hkey)
      refine rests_iff.mpr ⟨(rests_iff.mp (h.setQueue thief ((hqueues thief).push hne))).1, ?_⟩
      exact fun other hother => hflight other ((List.eraseIdx_sublist _ _).subset hother)
  | sleep c wakeTick =>
    refine h.setQueue c ?_
    have hbound := (hs.settled c).bound
    exact (hqueues c).setState (List.getElem?_eq_getElem hbound)
      (hpermits _ (List.getElem?_eq_getElem hbound)) _
  | exit c => exact h.setQueue c ((hqueues c).modifyAt _ (keeps_setDead hP))
  | smpTimerTick c now =>
    exact h.setQueue c (((hqueues c).modifyAt _ keeps_countTick).map (keeps_wake hpermits))
  | wake c now => exact h.setQueue c ((hqueues c).map (keeps_wake hpermits))
  | countTick c => exact h.setQueue c ((hqueues c).modifyAt _ keeps_countTick)
  | kill c tid => exact h.setQueue c ((hqueues c).markDead hP tid)
  | reap c =>
    exact h.setQueue c fun task hmem =>
      hqueues c task ((reapFrom_sublist _ _ _).subset hmem)

theorem not_notAlive_of_sleep {c : Fin n} {wakeTick : Nat}
    (hget : (s.queues c).tasks[(s.queues c).current]? = some task) :
    ¬ (s.step (.sleep c wakeTick)).NotAlive task.key := by
  intro h
  have hasleep : ((s.step (.sleep c wakeTick)).queues c).tasks[(s.queues c).current]? =
      some (task.setState (.sleeping wakeTick)) := by
    simp only [RunQueues.step, setQueue_queues_self, CpuScheduler.sleep]
    rw [getElem?_modifyAt, if_pos rfl, hget, Option.map_some]
  have hdead := h _ (.inl ⟨c, List.mem_of_getElem? hasleep⟩) rfl
  cases hdead

theorem present_iff_has : s.Present key ↔ ∃ task, s.Has task ∧ task.key = key := by
  constructor
  · rintro (⟨c, hmem⟩ | hmem)
    · obtain ⟨task, htask, hkey⟩ := mem_keys.mp hmem
      exact ⟨task, .inl ⟨c, htask⟩, hkey⟩
    · obtain ⟨⟨thief, task⟩, hentry, hkey⟩ := List.mem_map.mp hmem
      exact ⟨task, .inr ⟨thief, hentry⟩, hkey⟩
  · rintro ⟨task, ⟨c, hmem⟩ | ⟨thief, hmem⟩, rfl⟩
    · exact .inl ⟨c, mem_keys.mpr ⟨task, hmem, rfl⟩⟩
    · exact .inr (List.mem_map_of_mem hmem)

theorem Conserved.key_lt (hs : Conserved s) (h : s.Has task) : task.key < s.nextKey :=
  hs.fresh _ (present_iff_has.mpr ⟨task, h, rfl⟩)

theorem Dead.lt_nextKey (hs : Conserved s) (h : s.Dead key) : key < s.nextKey := by
  obtain ⟨task, hhas, rfl, -⟩ := h
  exact hs.key_lt hhas

theorem nextKey_le_step (e : LockedSection n) : s.nextKey ≤ (s.step e).nextKey := by
  cases e with
  | spawn _ _ | spawnUser _ _ _ => exact Nat.le_succ _
  | stealTask thief victim =>
    rcases step_stealTask_cases s thief victim with hsame | ⟨_, _, _, _, _, _, hstep⟩
    · exact Nat.le_of_eq (congrArg _ hsame.symm)
    · rw [hstep]
      exact le_rfl
  | finishSteal entry =>
    rcases step_finishSteal_cases s entry with hsame | ⟨_, _, _, hstep⟩
    · exact Nat.le_of_eq (congrArg _ hsame.symm)
    · rw [hstep]
      exact le_rfl
  | _ => exact le_rfl

theorem permits_of_sleepsAlive (h : s.NotAlive key) {e : LockedSection n}
    (hsleep : s.SleepsAlive e) : s.Permits (· = .dead) key e := by
  cases e with
  | sleep c wakeTick =>
    exact fun task hget hkey =>
      hsleep task hget (h task (.inl ⟨c, List.mem_of_getElem? hget⟩) hkey)
  | smpTimerTick _ _ | wake _ _ => exact fun _ _ => nofun
  | _ => trivial

theorem RunQueues.NotAlive.after (h : s.NotAlive key) (hs : Conserved s) (hlt : key < s.nextKey)
    {sections : List (LockedSection n)}
    (hsleep : Guarded RunQueues.step RunQueues.SleepsAlive s sections) :
    (s.after sections).NotAlive key := by
  induction sections generalizing s with
  | nil => exact h
  | cons e rest ih =>
    have hstep : (s.step e).NotAlive key :=
      (notAlive_iff_rests.mp h).step resting_dead hs hlt e (permits_of_sleepsAlive h hsleep.1)
    exact ih hstep (hs.step e) (Nat.lt_of_lt_of_le hlt (nextKey_le_step e)) hsleep.2

end Steps

/-- In every interleaving, on any number of CPUs, a task that has died never becomes ready,
running or sleeping again and is never chosen, exactly if no task that was killed
while it executed puts itself to sleep. -/
theorem dead_absorbing_iff (n sentinelStack : Nat) (sections : List (LockedSection n)) :
    Guarded RunQueues.step RunQueues.SleepsAlive (RunQueues.boot n sentinelStack) sections ↔
      ∀ i j key, i ≤ j → ((RunQueues.boot n sentinelStack).after (sections.take i)).Dead key →
        ((RunQueues.boot n sentinelStack).after (sections.take j)).NotAlive key ∧
        ((RunQueues.boot n sentinelStack).after (sections.take j)).NotChosen key := by
  have hboot := conserved_boot n sentinelStack
  constructor
  · intro hguarded i j key hij hdead
    have hs := conserved_after hboot (sections.take i)
    have hsplit : sections.take j = sections.take i ++ (sections.take j).drop i := by
      have happend := List.take_append_drop i (sections.take j)
      rw [List.take_take, Nat.min_eq_left hij] at happend
      exact happend.symm
    have hrest : Guarded RunQueues.step RunQueues.SleepsAlive
        ((RunQueues.boot n sentinelStack).after (sections.take i)) ((sections.take j).drop i) := by
      rw [← List.take_append_drop j sections, guarded_append, hsplit, guarded_append] at hguarded
      exact hguarded.1.2
    have hstays := (notAlive_of_dead hs hdead).after hs (Dead.lt_nextKey hs hdead) hrest
    have hafter : (RunQueues.boot n sentinelStack).after (sections.take j) =
        ((RunQueues.boot n sentinelStack).after (sections.take i)).after
          ((sections.take j).drop i) :=
      (congrArg (RunQueues.after _) hsplit).trans List.foldl_append
    rw [hafter]
    exact ⟨hstays, (notAlive_iff_rests.mp hstays).notChosen resting_dead⟩
  · intro h
    rw [guarded_iff_getElem?]
    intro k e he
    match e with
    | .sleep c wakeTick =>
      intro task hget hdead
      have hstays := (h k (k + 1) task.key (Nat.le_succ k)
        ⟨task, .inl ⟨c, List.mem_of_getElem? hget⟩, rfl, hdead⟩).1
      rw [after_take_succ_queues he] at hstays
      exact not_notAlive_of_sleep hget hstays
    | .spawn .. | .spawnUser .. | .yieldNow _ | .preemptSchedule _ | .stealTask .. | .finishSteal _
    | .exit _ | .smpTimerTick .. | .wake .. | .countTick _ | .kill .. | .reap _ => trivial

def killedThenAsleep : List (LockedSection 2) :=
  [.spawn 0 0x30000, .yieldNow 0, .yieldNow 0, .kill 0 2, .sleep 0 100, .yieldNow 0, .wake 0 100,
    .yieldNow 0]

/-- After the kill the task was dead; now it is ready again and the next to be chosen. -/
theorem killed_task_chosen :
    (((RunQueues.boot 2 0x20000).after (killedThenAsleep.take 4)).queues 0).tasks[2]?.map
        (fun task => (task.key, task.state)) = some (3, .dead) ∧
      (((RunQueues.boot 2 0x20000).after killedThenAsleep).queues 0).tasks[2]?.map
        (fun task => (task.key, task.state)) = some (3, .ready) ∧
      (((RunQueues.boot 2 0x20000).after killedThenAsleep).queues 0).pickNext = some 2 := by
  decide

end AuraOS.Scheduling
