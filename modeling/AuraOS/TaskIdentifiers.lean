import AuraOS.DeadTasks

namespace AuraOS.Scheduling

open DistinctQueues GuardedRuns

variable {f : Task → Task} {id key : Nat} {task : Task}

variable {n : Nat}

def CpuScheduler.ids (sched : CpuScheduler) : List Nat :=
  sched.tasks.map Task.id

def RunQueues.UniqueIds (s : RunQueues n) : Prop :=
  Distinct (fun c => (s.queues c).ids) (s.inFlight.map fun entry => entry.2.id)

def LockedSection.spawns : LockedSection n → Bool
  | .spawn _ _ | .spawnUser _ _ _ => true
  | _ => false

def RunQueues.FreshId (s : RunQueues n) (e : LockedSection n) : Prop :=
  e.spawns = true → ∀ task, s.Has task → task.id ≠ s.nextTaskId

/-- A task is spawned only while the counter is at the id of no root task present;
the root task of CPU `c` has the key `c`. -/
def RunQueues.AvoidsRoots (s : RunQueues n) (e : LockedSection n) : Prop :=
  e.spawns = true → ∀ c : Fin n, s.Present c → s.nextTaskId ≠ (Task.rootForCpu c c).id

section Queue

variable {sched sched' sched'' : CpuScheduler}

def Descends (sched sched' : CpuScheduler) : Prop :=
  ∀ task ∈ sched'.tasks, ∃ old ∈ sched.tasks, old.id = task.id ∧ old.key = task.key

structure KeepsId (f : Task → Task) : Prop where
  id : ∀ task, (f task).id = task.id
  key : ∀ task, (f task).key = task.key

theorem keepsId_setState (state : TaskState) : KeepsId (Task.setState state) :=
  ⟨fun _ => rfl, fun _ => rfl⟩

theorem keepsId_resetQuantum : KeepsId Task.resetQuantum :=
  ⟨fun _ => rfl, fun _ => rfl⟩

theorem keepsId_countTick : KeepsId Task.countTick := by
  constructor <;> intro task <;> simp only [Task.countTick] <;> split <;> rfl

theorem keepsId_preempted : KeepsId Task.preempted := by
  constructor <;> intro task <;> simp only [Task.preempted] <;> split <;> rfl

theorem keepsId_wake (now : Nat) : KeepsId (Task.wake now) := by
  constructor
  · intro task
    simp only [Task.wake]
    split
    · split <;> rfl
    · rfl
  · exact fun task => congrArg Core.key (core_wake now task)

theorem Descends.refl (sched : CpuScheduler) : Descends sched sched :=
  fun task hmem => ⟨task, hmem, rfl, rfl⟩

theorem Descends.trans (h : Descends sched sched') (h' : Descends sched' sched'') :
    Descends sched sched'' := by
  intro task hmem
  obtain ⟨mid, hmid, hid, hkey⟩ := h' task hmem
  obtain ⟨old, hold, hid', hkey'⟩ := h mid hmid
  exact ⟨old, hold, hid'.trans hid, hkey'.trans hkey⟩

theorem descends_of_subset (h : sched'.tasks ⊆ sched.tasks) : Descends sched sched' :=
  fun task hmem => ⟨task, h hmem, rfl, rfl⟩

section Descent

variable (sched : CpuScheduler)

theorem descends_modifyAt (idx : Nat) (hf : KeepsId f) : Descends sched (sched.modifyAt idx f) := by
  intro task hmem
  rcases mem_modifyAt hmem with hold | ⟨old, hold, rfl⟩
  · exact ⟨task, hold, rfl, rfl⟩
  · exact ⟨old, hold, (hf.id old).symm, (hf.key old).symm⟩

theorem descends_map (hf : KeepsId f) :
    Descends sched { sched with tasks := sched.tasks.map f } := by
  intro task hmem
  obtain ⟨old, hold, rfl⟩ := List.mem_map.mp hmem
  exact ⟨old, hold, (hf.id old).symm, (hf.key old).symm⟩

theorem descends_switchTo (next : Nat) : Descends sched (sched.switchTo next).2 := by
  simp only [CpuScheduler.switchTo]
  split
  · exact .refl sched
  · exact (descends_modifyAt sched _ keepsId_preempted).trans
      (descends_modifyAt _ next (keepsId_setState .running))

theorem descends_kept : Kept (Descends sched) :=
  ⟨fun idx h => h.trans (descends_modifyAt _ idx keepsId_resetQuantum),
    fun _ h => h.trans (descends_switchTo _ _)⟩

theorem descends_markDead (tid : Nat) : Descends sched (sched.markDead tid) :=
  markDead_of_modifyAt (.refl sched)
    (fun idx => descends_modifyAt sched idx (keepsId_setState .dead)) tid

theorem mem_push (task other : Task) :
    other ∈ (sched.push task).tasks ↔ other ∈ sched.tasks ∨ other = task := by
  rw [tasks_push, List.mem_append, List.mem_singleton]

end Descent

end Queue

section Steps

variable {s : RunQueues n}

def RunQueues.Holds (s : RunQueues n) (id key : Nat) : Prop :=
  ∃ task, s.Has task ∧ task.id = id ∧ task.key = key

theorem holds_of_descends {c : Fin n} {sched : CpuScheduler} (h : Descends (s.queues c) sched)
    (hholds : (s.setQueue c sched).Holds id key) : s.Holds id key := by
  obtain ⟨task, hqueue | hflight, rfl, rfl⟩ := hholds
  · rcases (exists_setQueue (P := fun sched => task ∈ sched.tasks)).mp hqueue with
      hmem | ⟨d, -, hmem⟩
    · obtain ⟨old, hold, hid, hkey⟩ := h task hmem
      exact ⟨old, .inl ⟨c, hold⟩, hid, hkey⟩
    · exact ⟨task, .inl ⟨d, hmem⟩, rfl, rfl⟩
  · exact ⟨task, .inr hflight, rfl, rfl⟩

theorem has_setQueue_push (c : Fin n) (task other : Task) :
    (s.setQueue c ((s.queues c).push task)).Has other ↔ s.Has other ∨ other = task := by
  have hqueues : (∃ d, other ∈ ((s.setQueue c ((s.queues c).push task)).queues d).tasks) ↔
      (∃ d, other ∈ (s.queues d).tasks) ∨ other = task := by
    rw [exists_setQueue (P := fun sched => other ∈ sched.tasks), mem_push, or_right_comm,
      ← exists_setQueue (P := fun sched => other ∈ sched.tasks), RunQueues.setQueue,
      Function.update_eq_self]
  rw [RunQueues.Has, hqueues, RunQueues.Has, or_right_comm]
  rfl

theorem has_spawnTask (c : Fin n) (task other : Task) :
    (s.spawnTask c task).Has other ↔ s.Has other ∨ other = task :=
  has_setQueue_push c task other

theorem holds_spawnTask {c : Fin n} (h : (s.spawnTask c task).Holds id key) :
    s.Holds id key ∨ id = task.id ∧ key = task.key := by
  obtain ⟨other, hhas, rfl, rfl⟩ := h
  rcases (has_spawnTask c task other).mp hhas with hhas | rfl
  · exact .inl ⟨other, hhas, rfl, rfl⟩
  · exact .inr ⟨rfl, rfl⟩

theorem holds_step {e : LockedSection n} (h : (s.step e).Holds id key) :
    s.Holds id key ∨ e.spawns = true ∧ id = s.nextTaskId ∧ key = s.nextKey := by
  cases e with
  | spawn c stackBase => exact (holds_spawnTask h).imp_right fun hnew => ⟨rfl, hnew⟩
  | spawnUser c stackBase cr3 => exact (holds_spawnTask h).imp_right fun hnew => ⟨rfl, hnew⟩
  | yieldNow c => exact .inl (holds_of_descends ((descends_kept _).yieldNow (.refl _)) h)
  | preemptSchedule c =>
    exact .inl (holds_of_descends ((descends_kept _).preemptSchedule (.refl _)) h)
  | stealTask thief victim =>
    rcases step_stealTask_cases s thief victim with hsame | ⟨idx, task, hget, -, -, -, hstep⟩
    · rw [hsame] at h
      exact .inl h
    · rw [hstep] at h
      obtain ⟨other, hqueue | ⟨cpu, hflight⟩, hid, hkey⟩ := h
      · have hshrunk : Descends (s.queues victim) ((s.queues victim).removeAt idx) :=
          descends_of_subset (List.eraseIdx_sublist _ _).subset
        exact .inl (holds_of_descends hshrunk ⟨other, .inl hqueue, hid, hkey⟩)
      · rcases List.mem_append.mp hflight with hflight | hflight
        · exact .inl ⟨other, .inr ⟨cpu, hflight⟩, hid, hkey⟩
        · rw [List.mem_singleton] at hflight
          cases hflight
          exact .inl ⟨task, .inl ⟨victim, List.mem_of_getElem? hget⟩, hid, hkey⟩
  | finishSteal entry =>
    rcases step_finishSteal_cases s entry with hsame | ⟨thief, task, hget, hstep⟩
    · rw [hsame] at h
      exact .inl h
    rw [hstep] at h
    obtain ⟨other, hqueue | ⟨cpu, hflight⟩, hid, hkey⟩ := h
    · rcases (has_setQueue_push thief _ other).mp (.inl hqueue) with hhas | rfl
      · exact .inl ⟨other, hhas, hid, hkey⟩
      · exact .inl ⟨task, .inr ⟨thief, List.mem_of_getElem? hget⟩, hid, hkey⟩
    · exact .inl ⟨other, .inr ⟨cpu, (List.eraseIdx_sublist _ _).subset hflight⟩, hid, hkey⟩
  | sleep c wakeTick =>
    exact .inl (holds_of_descends (descends_modifyAt _ _ (keepsId_setState _)) h)
  | exit c => exact .inl (holds_of_descends (descends_modifyAt _ _ (keepsId_setState _)) h)
  | smpTimerTick c now =>
    exact .inl (holds_of_descends
      ((descends_modifyAt _ _ keepsId_countTick).trans (descends_map _ (keepsId_wake now))) h)
  | wake c now => exact .inl (holds_of_descends (descends_map _ (keepsId_wake now)) h)
  | countTick c => exact .inl (holds_of_descends (descends_modifyAt _ _ keepsId_countTick) h)
  | kill c tid => exact .inl (holds_of_descends (descends_markDead _ tid) h)
  | reap c =>
    exact .inl (holds_of_descends (descends_of_subset (reapFrom_sublist _ _ _).subset) h)

def RunQueues.NamesOne (s : RunQueues n) : Prop :=
  ∀ id key key', s.Holds id key → s.Holds id key' → key = key'

theorem RunQueues.NamesOne.step (h : s.NamesOne) {e : LockedSection n} (hfresh : s.FreshId e) :
    (s.step e).NamesOne := by
  intro id key key' hkey hkey'
  rcases holds_step hkey with hold | ⟨hspawns, hid, hnew⟩
  · rcases holds_step hkey' with hold' | ⟨hspawns, rfl, -⟩
    · exact h id key key' hold hold'
    · obtain ⟨task, hhas, hid, -⟩ := hold
      exact absurd hid (hfresh hspawns task hhas)
  · rcases holds_step hkey' with ⟨task, hhas, hid', -⟩ | ⟨-, -, hnew'⟩
    · exact absurd (hid'.trans hid) (hfresh hspawns task hhas)
    · exact hnew.trans hnew'.symm

theorem uniqueIds_of_namesOne (hs : Conserved s) (h : s.NamesOne) : s.UniqueIds := by
  have hqueue : ∀ c, (s.queues c).keys = (s.queues c).tasks.map Task.key := fun c => by
    simp [CpuScheduler.keys, CpuScheduler.cores, Task.core]
  have hone : ∀ task other, s.Has task → s.Has other → task.id = other.id → task.key = other.key :=
    fun task other htask hother heq =>
      h task.id task.key other.key ⟨task, htask, rfl, rfl⟩ ⟨other, hother, heq.symm, rfl⟩
  refine ⟨fun c => ?_, fun c d id hc hd => ?_, ?_, fun c id hc hpool => ?_⟩
  · have hnodup := hs.distinct.queue_nodup c
    rw [hqueue] at hnodup
    exact nodup_map_of_determines hnodup fun task htask other hother heq =>
      hone task other (.inl ⟨c, htask⟩) (.inl ⟨c, hother⟩) heq
  · obtain ⟨task, htask, rfl⟩ := List.mem_map.mp hc
    obtain ⟨other, hother, heq⟩ := List.mem_map.mp hd
    have hkey := hone task other (.inl ⟨c, htask⟩) (.inl ⟨d, hother⟩) heq.symm
    exact hs.distinct.queue_unique c d task.key (mem_keys.mpr ⟨task, htask, rfl⟩)
      (mem_keys.mpr ⟨other, hother, hkey.symm⟩)
  · exact nodup_map_of_determines hs.distinct.pool_nodup fun entry hentry other hother heq =>
      hone entry.2 other.2 (.inr ⟨entry.1, hentry⟩) (.inr ⟨other.1, hother⟩) heq
  · obtain ⟨task, htask, rfl⟩ := List.mem_map.mp hc
    obtain ⟨entry, hentry, heq⟩ := List.mem_map.mp hpool
    have hkey := hone task entry.2 (.inl ⟨c, htask⟩) (.inr ⟨entry.1, hentry⟩) heq.symm
    exact hs.distinct.pool_disjoint c task.key (mem_keys.mpr ⟨task, htask, rfl⟩)
      (List.mem_map.mpr ⟨entry, hentry, hkey.symm⟩)

theorem freshId_of_uniqueIds {e : LockedSection n} (h : (s.step e).UniqueIds) : s.FreshId e := by
  have hspawn : ∀ c (task : Task), task.id = s.nextTaskId → (s.spawnTask c task).UniqueIds →
      ∀ other, s.Has other → other.id ≠ s.nextTaskId := by
    intro c task hid hunique other hother hsame
    have hqueue : ((s.spawnTask c task).queues c).ids = (s.queues c).ids ++ [task.id] := by
      have hself : (s.spawnTask c task).queues c = (s.queues c).push task :=
        setQueue_queues_self (s := s) c _
      rw [hself, CpuScheduler.ids, CpuScheduler.push]
      split <;> simp [CpuScheduler.ids]
    have hnew : task.id ∈ ((s.spawnTask c task).queues c).ids := by
      rw [hqueue]
      exact List.mem_append_right _ (List.mem_singleton_self _)
    rcases hother with ⟨d, hmem⟩ | ⟨thief, hmem⟩
    · have hold : task.id ∈ (s.queues d).ids :=
        List.mem_map.mpr ⟨other, hmem, hsame.trans hid.symm⟩
      by_cases hdc : d = c
      · subst hdc
        have hnodup := hunique.queue_nodup d
        rw [hqueue] at hnodup
        exact (List.disjoint_of_nodup_append hnodup) hold (List.mem_singleton_self _)
      · have hkept : (s.spawnTask c task).queues d = s.queues d := setQueue_queues_ne hdc _
        refine hdc (hunique.queue_unique d c task.id ?_ hnew)
        rwa [hkept]
    · exact hunique.pool_disjoint c task.id hnew (List.mem_map.mpr ⟨_, hmem, hsame.trans hid.symm⟩)
  intro hspawns
  cases e with
  | spawn c stackBase => exact hspawn c _ rfl h
  | spawnUser c stackBase cr3 => exact hspawn c _ rfl h
  | _ => cases hspawns

/-- The ids that the counter has given are those below it, in the order of the keys; the
root tasks come before the sentinel, which has the key `n` and the id 1. -/
structure RunQueues.Numbered (s : RunQueues n) : Prop where
  sentinel : n < s.nextKey
  counter : s.nextTaskId + n = s.nextKey + 1
  root : ∀ id key, s.Holds id key → key < n → id = (Task.rootForCpu key key).id
  given : ∀ id key, s.Holds id key → n ≤ key → id + n = key + 1

theorem numbered_boot (n sentinelStack : Nat) : (RunQueues.boot n sentinelStack).Numbered := by
  have hboot : ∀ id key, (RunQueues.boot n sentinelStack).Holds id key →
      key = n ∧ id = 1 ∨ key < n ∧ id = (Task.rootForCpu key key).id := by
    rintro id key ⟨task, ⟨c, hmem⟩ | ⟨thief, hmem⟩, rfl, rfl⟩
    · simp only [RunQueues.boot, System.runQueues, System.boot] at hmem
      split at hmem
      · simp only [List.mem_cons, List.not_mem_nil, or_false] at hmem
        rcases hmem with rfl | rfl
        · exact .inr ⟨c.isLt, rfl⟩
        · exact .inl ⟨rfl, rfl⟩
      · rw [List.mem_singleton] at hmem
        subst hmem
        exact .inr ⟨c.isLt, rfl⟩
    · cases hmem
  constructor
  · exact Nat.lt_succ_self n
  · simp only [RunQueues.boot, System.runQueues, System.boot]
    omega
  · intro id key hholds hlt
    rcases hboot id key hholds with ⟨rfl, -⟩ | ⟨-, hid⟩
    · exact absurd hlt (Nat.lt_irrefl _)
    · exact hid
  · intro id key hholds hle
    rcases hboot id key hholds with ⟨rfl, rfl⟩ | ⟨hlt, -⟩
    · exact Nat.add_comm 1 key
    · exact absurd hlt (Nat.not_lt.mpr hle)

theorem namesOne_boot (n sentinelStack : Nat) : (RunQueues.boot n sentinelStack).NamesOne := by
  have hnumbered := numbered_boot n sentinelStack
  have hid : ∀ id key, (RunQueues.boot n sentinelStack).Holds id key →
      key = n ∧ id = 1 ∨ key = 0 ∧ id = 0 ∨ 0 < key ∧ id = 1000 + key := by
    intro id key hholds
    have hlt : key < n + 1 := by
      obtain ⟨task, hhas, -, rfl⟩ := hholds
      exact (conserved_boot n sentinelStack).key_lt hhas
    by_cases hroot : key < n
    · have hid := hnumbered.root id key hholds hroot
      by_cases hzero : key = 0
      · exact .inr (.inl ⟨hzero, hid.trans (if_pos hzero)⟩)
      · exact .inr (.inr ⟨Nat.pos_of_ne_zero hzero, hid.trans (if_neg hzero)⟩)
    · have hgiven := hnumbered.given id key hholds (Nat.not_lt.mp hroot)
      omega
  intro id key key' hkey hkey'
  have hfirst := hid id key hkey
  have hsecond := hid id key' hkey'
  omega

theorem counters_of_not_spawns {e : LockedSection n} (h : ¬ e.spawns = true) :
    (s.step e).nextTaskId = s.nextTaskId ∧ (s.step e).nextKey = s.nextKey := by
  cases e with
  | spawn _ _ | spawnUser _ _ _ => exact absurd rfl h
  | stealTask thief victim =>
    rcases step_stealTask_cases s thief victim with hsame | ⟨_, _, _, _, _, _, hstep⟩
    · rw [hsame]
      exact ⟨rfl, rfl⟩
    · rw [hstep]
      exact ⟨rfl, rfl⟩
  | finishSteal entry =>
    rcases step_finishSteal_cases s entry with hsame | ⟨_, _, _, hstep⟩
    · rw [hsame]
      exact ⟨rfl, rfl⟩
    · rw [hstep]
      exact ⟨rfl, rfl⟩
  | _ => exact ⟨rfl, rfl⟩

theorem counters_of_spawns {e : LockedSection n} (h : e.spawns = true) :
    (s.step e).nextTaskId = (s.nextTaskId + 1) % 2 ^ 64 ∧ (s.step e).nextKey = s.nextKey + 1 := by
  cases e with
  | spawn _ _ | spawnUser _ _ _ => exact ⟨rfl, rfl⟩
  | _ => cases h

def RunQueues.Counts (s : RunQueues n) (e : LockedSection n) : Prop :=
  e.spawns = true → s.nextTaskId + 1 < 2 ^ 64

theorem counts_of_few {sections : List (LockedSection n)}
    (h : s.nextTaskId + sections.countP LockedSection.spawns < 2 ^ 64) :
    Guarded RunQueues.step RunQueues.Counts s sections := by
  induction sections generalizing s with
  | nil => trivial
  | cons e rest ih =>
    by_cases hspawns : e.spawns = true
    · rw [List.countP_cons_of_pos hspawns] at h
      have hlt : s.nextTaskId + 1 < 2 ^ 64 := by omega
      refine ⟨fun _ => hlt, ih ?_⟩
      rw [(counters_of_spawns hspawns).1, Nat.mod_eq_of_lt hlt]
      omega
    · rw [List.countP_cons_of_neg hspawns] at h
      refine ⟨fun hspawn => absurd hspawn hspawns, ih ?_⟩
      rwa [(counters_of_not_spawns hspawns).1]

theorem RunQueues.Numbered.step (h : s.Numbered) {e : LockedSection n} (hcounts : s.Counts e) :
    (s.step e).Numbered := by
  have hsentinel := h.sentinel
  have hcounter := h.counter
  have hcounters : n < (s.step e).nextKey ∧ (s.step e).nextTaskId + n = (s.step e).nextKey + 1 := by
    by_cases hspawns : e.spawns = true
    · rw [(counters_of_spawns hspawns).1, (counters_of_spawns hspawns).2,
        Nat.mod_eq_of_lt (hcounts hspawns)]
      omega
    · rw [(counters_of_not_spawns hspawns).1, (counters_of_not_spawns hspawns).2]
      exact ⟨hsentinel, hcounter⟩
  refine ⟨hcounters.1, hcounters.2, fun id key hholds hlt => ?_, fun id key hholds hle => ?_⟩
  · rcases holds_step hholds with hold | ⟨-, -, rfl⟩
    · exact h.root id key hold hlt
    · exact absurd hlt (Nat.lt_asymm hsentinel)
  · rcases holds_step hholds with hold | ⟨-, rfl, rfl⟩
    · exact h.given id key hold hle
    · exact hcounter

theorem freshId_iff (h : s.Numbered) (hs : Conserved s) {e : LockedSection n} :
    s.FreshId e ↔ s.AvoidsRoots e := by
  refine forall_congr' fun _ => ⟨fun hfresh c hpresent heq => ?_, fun havoids task hhas heq => ?_⟩
  · obtain ⟨task, hhas, hkey⟩ := present_iff_has.mp hpresent
    exact hfresh task hhas ((h.root _ _ ⟨task, hhas, rfl, hkey⟩ c.isLt).trans heq.symm)
  · have hlt := hs.key_lt hhas
    have hcounter := h.counter
    by_cases hroot : task.key < n
    · exact havoids ⟨task.key, hroot⟩ (present_iff_has.mpr ⟨task, hhas, rfl⟩)
        (heq.symm.trans (h.root _ _ ⟨task, hhas, rfl, rfl⟩ hroot))
    · have hgiven := h.given _ _ ⟨task, hhas, rfl, rfl⟩ (Nat.not_lt.mp hroot)
      omega

end Steps

/-- On any number of CPUs, in a run that does not exhaust the 64-bit counter, the ids of
the tasks present are distinct in every state exactly if no task is spawned while the
counter stands at the id of a root task present. -/
theorem unique_ids_iff (n sentinelStack : Nat) (sections : List (LockedSection n))
    (hspawns : 2 + sections.countP LockedSection.spawns < 2 ^ 64) :
    Guarded RunQueues.step RunQueues.AvoidsRoots (RunQueues.boot n sentinelStack) sections ↔
      ∀ k, ((RunQueues.boot n sentinelStack).after (sections.take k)).UniqueIds := by
  have hkeep : ∀ (s : RunQueues n) e, Conserved s ∧ s.NamesOne ∧ s.Numbered → s.Counts e →
      s.AvoidsRoots e → Conserved (s.step e) ∧ (s.step e).NamesOne ∧ (s.step e).Numbered :=
    fun _ e ⟨hs, hone, hnumbered⟩ hcounts havoids =>
      ⟨hs.step e, hone.step ((freshId_iff hnumbered hs).mpr havoids), hnumbered.step hcounts⟩
  exact guarded_iff_of_domain hkeep (fun _ h => uniqueIds_of_namesOne h.1 h.2.1)
    (fun _ _ h _ hunique => (freshId_iff h.2.2 h.1).mp (freshId_of_uniqueIds hunique))
    ⟨conserved_boot n sentinelStack, namesOne_boot n sentinelStack, numbered_boot n sentinelStack⟩
    (counts_of_few hspawns)

instance instDecidableAvoidsRoots (s : RunQueues n) : DecidablePred s.AvoidsRoots := fun e =>
  inferInstanceAs (Decidable (e.spawns = true → ∀ c : Fin n,
    (∃ d, c.val ∈ (s.queues d).keys) ∨ c.val ∈ s.pool → s.nextTaskId ≠ (Task.rootForCpu c c).id))

theorem unique_ids_iff_killed :
    ((RunQueues.boot 2 0x20000).after
      ([.spawn 1 0x30000, .kill 1 2, .reap 1, .spawn 0 0x30000,
        .stealTask 1 0].take 5)).UniqueIds :=
  (unique_ids_iff 2 0x20000 _ (by decide)).mp (by decide) 5

section Collision

/-- The queue of CPU 1 after `init_ap`. -/
def idleQueue : CpuScheduler :=
  ⟨[Task.rootForCpu 1 1], 0, 4, 0⟩

/-- A task that is killed by its id before it runs, on two CPUs; `choose_target_cpu` takes
the shorter queue, that of CPU 1. -/
def shortLife (tid : Nat) : List (LockedSection 2) :=
  [.spawn 1 0x30000, .kill 0 tid, .kill 1 tid, .reap 1]

def shortLives (count : Nat) : List (LockedSection 2) :=
  (List.range count).flatMap fun k => shortLife (2 + k)

theorem reap_killed {tid : Nat} (h : tid ≠ 1001) (key : Nat) :
    ((idleQueue.push (Task.new tid 0x30000 key)).markDead tid).reapDeadTasks = idleQueue := by
  have hmark : (idleQueue.push (Task.new tid 0x30000 key)).markDead tid =
      ⟨[Task.rootForCpu 1 1, (Task.new tid 0x30000 key).setState .dead], 0, 4, 0⟩ := by
    simp [CpuScheduler.markDead, CpuScheduler.push, CpuScheduler.modifyAt, idleQueue,
      Task.rootForCpu, Task.new, List.findIdx?_cons, h.symm]
  rw [hmark]
  rfl

theorem after_shortLife {s : RunQueues 2} (hqueue : s.queues 1 = idleQueue)
    (hlt : s.nextTaskId < 1001) :
    (s.after (shortLife s.nextTaskId)).queues 1 = idleQueue ∧
      (s.after (shortLife s.nextTaskId)).nextTaskId = s.nextTaskId + 1 := by
  constructor
  · rw [← reap_killed (Nat.ne_of_lt hlt) s.nextKey, ← hqueue]
    simp [shortLife, RunQueues.after, RunQueues.step, RunQueues.spawnTask, RunQueues.setQueue]
  · exact Nat.mod_eq_of_lt (by omega)

theorem after_append (s : RunQueues n) (sections sections' : List (LockedSection n)) :
    s.after (sections ++ sections') = (s.after sections).after sections' :=
  List.foldl_append

theorem after_shortLives {count : Nat} (h : count ≤ 999) :
    ((RunQueues.boot 2 0x20000).after (shortLives count)).queues 1 = idleQueue ∧
      ((RunQueues.boot 2 0x20000).after (shortLives count)).nextTaskId = 2 + count := by
  induction count with
  | zero => exact ⟨rfl, rfl⟩
  | succ count ih =>
    obtain ⟨hqueue, hnext⟩ := ih (by omega)
    have hround := after_shortLife hqueue (by omega)
    rw [hnext] at hround
    have hsplit : shortLives (count + 1) = shortLives count ++ shortLife (2 + count) := by
      simp [shortLives, List.range_succ]
    rw [hsplit, after_append]
    exact ⟨hround.1, hround.2.trans (Nat.add_assoc 2 count 1)⟩

theorem ids_after_spawn {s : RunQueues 2} (hqueue : s.queues 1 = idleQueue) :
    ((s.after [.spawn 1 0x30000]).queues 1).ids = [1001, s.nextTaskId] := by
  have hpushed : (s.after [.spawn 1 0x30000]).queues 1 =
      idleQueue.push (Task.new s.nextTaskId 0x30000 s.nextKey) := by
    rw [← hqueue]
    exact setQueue_queues_self (s := s) 1 _
  rw [hpushed]
  rfl

/-- The thousandth task gets the id of the root task of CPU 1, beside which it is
queued. -/
theorem spawned_task_takes_root_id :
    (((RunQueues.boot 2 0x20000).after (shortLives 999 ++ [.spawn 1 0x30000])).queues 1).ids =
        [1001, 1001] ∧
      ¬ ((RunQueues.boot 2 0x20000).after (shortLives 999 ++ [.spawn 1 0x30000])).UniqueIds := by
  obtain ⟨hqueue, hnext⟩ := after_shortLives (le_refl 999)
  have hids : (((RunQueues.boot 2 0x20000).after
      (shortLives 999 ++ [.spawn 1 0x30000])).queues 1).ids = [1001, 1001] := by
    rw [after_append, ids_after_spawn hqueue, hnext]
  refine ⟨hids, fun hunique => ?_⟩
  have hnodup := hunique.queue_nodup 1
  rw [hids] at hnodup
  exact absurd hnodup (by decide)

end Collision

end AuraOS.Scheduling
