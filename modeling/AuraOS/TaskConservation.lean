import AuraOS.RunQueues

namespace AuraOS.Scheduling

open DistinctQueues Function

variable {sched : CpuScheduler} {task : Task} {idx entry key : Nat}

variable {n : Nat}

structure Conserved (s : RunQueues n) : Prop where
  distinct : Distinct (fun c => (s.queues c).keys) s.pool
  fresh : ∀ key, s.Present key → key < s.nextKey
  settled : ∀ c, Settled (s.queues c)
  ready : ∀ entry ∈ s.inFlight, entry.2.state = .ready

section Conservation

variable {s : RunQueues n}

@[simp]
theorem setQueue_queues_self (c : Fin n) (sched : CpuScheduler) :
    (s.setQueue c sched).queues c = sched := by
  simp [RunQueues.setQueue]

theorem setQueue_queues_ne {c d : Fin n} (h : d ≠ c) (sched : CpuScheduler) :
    (s.setQueue c sched).queues d = s.queues d := by
  simp [RunQueues.setQueue, update_of_ne h]

theorem forall_setQueue {P : Fin n → CpuScheduler → Prop} {c : Fin n} :
    (∀ d, P d ((s.setQueue c sched).queues d)) ↔ P c sched ∧ ∀ d, d ≠ c → P d (s.queues d) :=
  forall_update_iff s.queues P

theorem exists_setQueue {P : CpuScheduler → Prop} {c : Fin n} :
    (∃ d, P ((s.setQueue c sched).queues d)) ↔ P sched ∨ ∃ d, d ≠ c ∧ P (s.queues d) :=
  exists_update_iff s.queues fun _ => P

theorem keys_setQueue (c : Fin n) (sched : CpuScheduler) :
    (fun d => ((s.setQueue c sched).queues d).keys) =
      update (fun d => (s.queues d).keys) c sched.keys :=
  comp_update CpuScheduler.keys s.queues c sched

theorem settled_setQueue (h : ∀ c, Settled (s.queues c)) (c : Fin n) (hs : Settled sched) :
    ∀ d, Settled ((s.setQueue c sched).queues d) :=
  forall_setQueue.mpr ⟨hs, fun d _ => h d⟩

theorem present_setQueue (c : Fin n) (sched : CpuScheduler) :
    (s.setQueue c sched).Present key ↔
      key ∈ sched.keys ∨ (∃ d, d ≠ c ∧ key ∈ (s.queues d).keys) ∨ key ∈ s.pool := by
  rw [RunQueues.Present, exists_setQueue (P := fun sched => key ∈ sched.keys), or_assoc]
  rfl

theorem present_split (c : Fin n) :
    s.Present key ↔
      key ∈ (s.queues c).keys ∨ (∃ d, d ≠ c ∧ key ∈ (s.queues d).keys) ∨ key ∈ s.pool := by
  have hsame : s.setQueue c (s.queues c) = s := by
    simp [RunQueues.setQueue]
  rw [← present_setQueue c (s.queues c), hsame]

theorem present_spawnTask (c : Fin n) (task : Task) :
    (s.spawnTask c task).Present key ↔ s.Present key ∨ key = task.key := by
  have hsplit : (s.spawnTask c task).Present key ↔
      (s.setQueue c ((s.queues c).push task)).Present key := Iff.rfl
  rw [hsplit, present_setQueue, keys_push, List.mem_append, List.mem_singleton, present_split c]
  exact or_right_comm

theorem present_takeTask (thief : Fin n) {victim : Fin n}
    (hget : (s.queues victim).tasks[idx]? = some task) :
    RunQueues.Present { s.setQueue victim ((s.queues victim).removeAt idx) with
      inFlight := s.inFlight ++ [(thief, task)] } key ↔ s.Present key := by
  have hkey : (s.queues victim).keys[idx]? = some task.key := by
    rw [getElem?_keys, hget, Option.map_some]
  have hsplit : RunQueues.Present { s.setQueue victim ((s.queues victim).removeAt idx) with
      inFlight := s.inFlight ++ [(thief, task)] } key ↔
        key = task.key ∨ (s.setQueue victim ((s.queues victim).removeAt idx)).Present key := by
    rw [or_comm]
    simp only [RunQueues.Present, RunQueues.pool, List.map_append, List.mem_append,
      List.map_cons, List.map_nil, List.mem_singleton, or_assoc]
    rfl
  rw [hsplit, present_setQueue, keys_removeAt, present_split victim, mem_iff_of_getElem? hkey,
    or_assoc]

theorem pool_eraseIdx (entry : Nat) :
    RunQueues.pool { s with inFlight := s.inFlight.eraseIdx entry } =
    s.pool.eraseIdx entry := by
  simp only [RunQueues.pool, List.eraseIdx_eq_take_drop_succ, List.map_append, List.map_take,
    List.map_drop]

theorem present_putTask {thief : Fin n} (hget : s.inFlight[entry]? = some (thief, task)) :
    RunQueues.Present { s.setQueue thief ((s.queues thief).push task.resetQuantum) with
      inFlight := s.inFlight.eraseIdx entry } key ↔ s.Present key := by
  have hkey : s.pool[entry]? = some task.key := by
    simp [RunQueues.pool, hget]
  have hsplit : RunQueues.Present { s.setQueue thief ((s.queues thief).push task.resetQuantum) with
      inFlight := s.inFlight.eraseIdx entry } key ↔
        RunQueues.Present { s with inFlight := s.inFlight.eraseIdx entry } key ∨ key = task.key :=
    present_spawnTask (s := { s with inFlight := s.inFlight.eraseIdx entry }) thief
      task.resetQuantum
  rw [hsplit, RunQueues.Present, pool_eraseIdx, RunQueues.Present, mem_iff_of_getElem? hkey,
    or_assoc, or_comm (a := key ∈ _)]

variable (h : Conserved s)
include h

theorem Conserved.shrink (c : Fin n) (hkeys : sched.keys.Sublist (s.queues c).keys)
    (hs : Settled sched) : Conserved (s.setQueue c sched) := by
  refine ⟨?_, fun key hkey => h.fresh key ?_, settled_setQueue h.settled c hs, h.ready⟩
  · rw [keys_setQueue]
    exact h.distinct.shrink c hkeys
  · rw [present_setQueue] at hkey
    exact (present_split c).mpr (hkey.imp_left fun hkey => hkeys.subset hkey)

theorem Conserved.relabel (c : Fin n) (hkeys : sched.keys = (s.queues c).keys)
    (hs : Settled sched) :
    Conserved (s.setQueue c sched) :=
  h.shrink c (hkeys ▸ List.Sublist.refl _) hs

theorem Conserved.spawnTask (c : Fin n) (hkey : task.key = s.nextKey)
    (hstate : task.state = .ready) : Conserved (s.spawnTask c task) := by
  have habsent : ¬ s.Present task.key := fun hmem =>
    absurd (h.fresh _ hmem) (by omega)
  refine ⟨?_, ?_, settled_setQueue h.settled c ((h.settled c).push (by simp [hstate])), h.ready⟩
  · show Distinct (fun d => ((s.setQueue c ((s.queues c).push task)).queues d).keys) s.pool
    rw [keys_setQueue, keys_push]
    exact h.distinct.push c (fun d hd => habsent (.inl ⟨d, hd⟩)) fun hd => habsent (.inr hd)
  · intro key hmem
    show key < s.nextKey + 1
    rcases (present_spawnTask c task).mp hmem with hmem | rfl
    · exact Nat.lt_succ_of_lt (h.fresh key hmem)
    · omega

omit h in
theorem step_stealTask_cases (s : RunQueues n) (thief victim : Fin n) :
    s.step (.stealTask thief victim) = s ∨ ∃ idx task, (s.queues victim).tasks[idx]? = some task ∧
      idx ≠ 0 ∧ idx ≠ (s.queues victim).current ∧ task.state = .ready ∧
      s.step (.stealTask thief victim) = { s.setQueue victim ((s.queues victim).removeAt idx) with
        inFlight := s.inFlight ++ [(thief, task)] } := by
  simp only [RunQueues.step]
  split
  · exact .inl rfl
  simp only [RunQueues.stealTask]
  rcases stealTask_cases (s.queues victim) with hnone | ⟨idx, task, hget, hzero, hne, hready, hsome⟩
  · exact .inl (by rw [hnone])
  · exact .inr ⟨idx, task, hget, hzero, hne, hready, by rw [hsome]⟩

omit h in
theorem step_finishSteal_cases (s : RunQueues n) (entry : Nat) :
    s.step (.finishSteal entry) = s ∨ ∃ thief task, s.inFlight[entry]? = some (thief, task) ∧
      s.step (.finishSteal entry) =
        { s.setQueue thief ((s.queues thief).push task.resetQuantum) with
          inFlight := s.inFlight.eraseIdx entry } := by
  simp only [RunQueues.step, RunQueues.finishSteal]
  split
  · exact .inl rfl
  · rename_i thief task hget
    exact .inr ⟨thief, task, hget, rfl⟩

theorem Conserved.takeTask (thief : Fin n) {victim : Fin n}
    (hget : (s.queues victim).tasks[idx]? = some task) (hne : idx ≠ (s.queues victim).current)
    (hready : task.state = .ready) :
    Conserved { s.setQueue victim ((s.queues victim).removeAt idx) with
      inFlight := s.inFlight ++ [(thief, task)] } := by
  have hkey : (s.queues victim).keys[idx]? = some task.key := by
    rw [getElem?_keys, hget, Option.map_some]
  have hmem : task.key ∈ (s.queues victim).keys := List.mem_of_getElem? hkey
  have hkeys : ((s.queues victim).removeAt idx).keys.Sublist (s.queues victim).keys := by
    rw [keys_removeAt]
    exact List.eraseIdx_sublist _ _
  have hshrunk := h.shrink victim hkeys
    ((h.settled victim).removeAt hne (List.getElem?_eq_some_iff.mp hget).1)
  have habsent : ∀ c, task.key ∉
      ((s.setQueue victim ((s.queues victim).removeAt idx)).queues c).keys := by
    refine forall_setQueue (P := fun _ sched => task.key ∉ sched.keys) |>.mpr
      ⟨?_, fun c hc hmem' => ?_⟩
    · rw [keys_removeAt]
      exact not_mem_eraseIdx (h.distinct.queue_nodup victim) hkey
    · exact hc (h.distinct.queue_unique c victim _ hmem' hmem)
  refine ⟨?_, fun key hkey' => h.fresh key ((present_takeTask thief hget).mp hkey'),
    hshrunk.settled, List.forall_mem_append.mpr ⟨h.ready, List.forall_mem_singleton.mpr hready⟩⟩
  have hpool := hshrunk.distinct.pool_push habsent (h.distinct.pool_disjoint victim _ hmem)
  rw [RunQueues.pool, List.map_append]
  exact hpool

theorem Conserved.putTask {thief : Fin n} (hget : s.inFlight[entry]? = some (thief, task)) :
    Conserved { s.setQueue thief ((s.queues thief).push task.resetQuantum) with
      inFlight := s.inFlight.eraseIdx entry } := by
  have hkey : s.pool[entry]? = some task.key := by
    simp [RunQueues.pool, hget]
  have hready : task.resetQuantum.state ≠ .running := by
    have hstate : task.state = .ready := h.ready _ (List.mem_of_getElem? hget)
    simp [Task.resetQuantum, hstate]
  have habsent : ∀ c, task.key ∉ (s.queues c).keys := fun c hc =>
    h.distinct.pool_disjoint c _ hc (List.mem_of_getElem? hkey)
  refine ⟨?_, fun key hkey' => h.fresh key ((present_putTask hget).mp hkey'),
    settled_setQueue h.settled thief ((h.settled thief).push hready),
    fun e he => h.ready e ((List.eraseIdx_sublist _ _).subset he)⟩
  show Distinct (fun d => ((s.setQueue thief _).queues d).keys)
    (RunQueues.pool { s with inFlight := s.inFlight.eraseIdx entry })
  rw [keys_setQueue, keys_push, pool_eraseIdx]
  exact (h.distinct.pool_shrink (List.eraseIdx_sublist _ _)).push thief habsent
    (not_mem_eraseIdx h.distinct.pool_nodup hkey)

theorem Conserved.step (e : LockedSection n) : Conserved (s.step e) := by
  cases e with
  | spawn c stackBase => exact h.spawnTask c rfl rfl
  | spawnUser c stackBase cr3 => exact h.spawnTask c rfl rfl
  | yieldNow c =>
    exact h.relabel c (keys_of_cores (yieldNow_scheduled _).cores)
      (settled_kept.yieldNow (h.settled c))
  | preemptSchedule c =>
    exact h.relabel c (keys_of_cores (preemptSchedule_scheduled _).cores)
      (settled_kept.preemptSchedule (h.settled c))
  | stealTask thief victim =>
    rcases step_stealTask_cases s thief victim with
      hsame | ⟨idx, task, hget, -, hne, hready, hstep⟩
    · rwa [hsame]
    · rw [hstep]
      exact h.takeTask thief hget hne hready
  | finishSteal entry =>
    rcases step_finishSteal_cases s entry with hsame | ⟨thief, task, hget, hstep⟩
    · rwa [hsame]
    · rw [hstep]
      exact h.putTask hget
  | sleep c wakeTick =>
    exact h.relabel c (keys_of_cores (cores_modifyAt (core_setState _) _))
      ((h.settled c).modifyAt _ (calm_setState nofun))
  | exit c =>
    exact h.relabel c (keys_of_cores (cores_modifyAt (core_setState _) _))
      ((h.settled c).modifyAt _ (calm_setState nofun))
  | smpTimerTick c now =>
    exact h.relabel c (keys_timerTick now)
      (((h.settled c).modifyAt _ calm_countTick).map (calm_wake now))
  | wake c now =>
    exact h.relabel c (keys_of_cores (cores_map (core_wake now)))
      ((h.settled c).map (calm_wake now))
  | countTick c =>
    exact h.relabel c (keys_of_cores (cores_modifyAt core_countTick _))
      ((h.settled c).modifyAt _ calm_countTick)
  | kill c tid => exact h.relabel c (keys_markDead tid) ((h.settled c).markDead tid)
  | reap c =>
    refine h.shrink c ?_ ((h.settled c).reapFrom _ _)
    exact ((reapFrom_sublist _ _ _).map _).map _

omit h in
theorem conserved_boot (n sentinelStack : Nat) : Conserved (RunQueues.boot n sentinelStack) := by
  have hdistinct : Distinct (fun c => ((System.boot n sentinelStack 0).cpus c).sched.keys) [] :=
    boot_distinct
  refine ⟨hdistinct, ?_, fun c => ⟨?_, ?_⟩, by rintro _ ⟨⟩⟩
  · rintro key (⟨c, hc⟩ | hc)
    · have hc' : key ∈ ((System.boot n sentinelStack 0).cpus c).sched.keys := hc
      rw [boot_keys] at hc'
      show key < n + 1
      split at hc' <;> grind
    · cases hc
  · show 0 < _
    simp only [RunQueues.boot, System.runQueues, System.boot]
    split <;> simp
  · intro i task hget hrunning
    show i = 0
    simp only [RunQueues.boot, System.runQueues, System.boot] at hget
    split at hget
    · rcases i with _ | _ | i
      · rfl
      · cases hget
        cases hrunning
      · cases hget
    · rcases i with _ | i
      · rfl
      · cases hget

theorem conserved_after (sections : List (LockedSection n)) : Conserved (s.after sections) := by
  induction sections generalizing s with
  | nil => exact h
  | cons e rest ih => exact ih (h.step e)

end Conservation

section Lifetime

variable {s : RunQueues n} {key : Nat}

def RunQueues.Reaps (s : RunQueues n) (e : LockedSection n) (key : Nat) : Prop :=
  ∃ c task, e = .reap c ∧ task ∈ (s.queues c).tasks ∧ task.key = key ∧ task.state = .dead

structure Conserves (s : RunQueues n) (e : LockedSection n) : Prop where
  kept : ∀ key, s.Present key → (s.step e).Present key ∨ s.Reaps e key
  born : ∀ key, s.nextKey ≤ key → key < (s.step e).nextKey → (s.step e).Present key
  gone : ∀ key < s.nextKey, ¬ s.Present key → ¬ (s.step e).Present key
  current : ∀ c, ¬ s.Switches c e → ((s.step e).queues c).currentKey = (s.queues c).currentKey

theorem currentKey_setQueue {c : Fin n} (h : sched.currentKey = (s.queues c).currentKey) :
    ∀ d, ((s.setQueue c sched).queues d).currentKey = (s.queues d).currentKey :=
  (forall_setQueue (P := fun d sched => sched.currentKey = (s.queues d).currentKey)).mpr
    ⟨h, fun _ _ => rfl⟩

theorem conserves_of_present {e : LockedSection n}
    (hpresent : ∀ key, (s.step e).Present key ↔ s.Present key)
    (hnext : (s.step e).nextKey = s.nextKey) (hcurrent : ∀ c, ¬ s.Switches c e →
      ((s.step e).queues c).currentKey = (s.queues c).currentKey) : Conserves s e where
  kept := fun key hkey => .inl ((hpresent key).mpr hkey)
  born := fun _ hle hlt => absurd (hnext ▸ hlt) (Nat.not_lt.mpr hle)
  gone := fun key _ habsent hkey => habsent ((hpresent key).mp hkey)
  current := hcurrent

theorem conserves_relabel {e : LockedSection n} {c : Fin n} (hstep : s.step e = s.setQueue c sched)
    (hkeys : sched.keys = (s.queues c).keys) (hcurrent : ∀ d, ¬ s.Switches d e →
      ((s.setQueue c sched).queues d).currentKey = (s.queues d).currentKey) : Conserves s e := by
  refine conserves_of_present (fun key => ?_) (by rw [hstep]; rfl) (hstep ▸ hcurrent)
  rw [hstep, present_setQueue, hkeys, ← present_split c]

theorem conserves_relabel_current {e : LockedSection n} {c : Fin n}
    (hstep : s.step e = s.setQueue c sched) (hkeys : sched.keys = (s.queues c).keys)
    (hcurrent : sched.current = (s.queues c).current) : Conserves s e :=
  conserves_relabel hstep hkeys fun d _ =>
    currentKey_setQueue (currentKey_of_keys hkeys hcurrent) d

theorem conserves_schedule {e : LockedSection n} {c : Fin n} {result : Option Switch × CpuScheduler}
    (hstep : s.step e = s.setQueue c result.2) (hresult : Scheduled (s.queues c) result)
    (hswitches : ¬ s.Switches c e → result.1 = none) : Conserves s e := by
  have hkeys := keys_of_cores hresult.cores
  refine conserves_relabel hstep hkeys fun d hstays => ?_
  by_cases hdc : d = c
  · subst hdc
    exact currentKey_setQueue (currentKey_of_keys hkeys (hresult.stay (hswitches hstays))) d
  · rw [setQueue_queues_ne hdc]

theorem conserves_spawn (h : Conserved s) {e : LockedSection n} {c : Fin n}
    (hstep : s.step e = s.spawnTask c task) (hkey : task.key = s.nextKey) : Conserves s e := by
  have hpresent : ∀ key, (s.step e).Present key ↔ s.Present key ∨ key = s.nextKey := fun key => by
    rw [hstep, present_spawnTask, hkey]
  refine ⟨fun key hkey => .inl ((hpresent key).mpr (.inl hkey)), fun key hle hlt => ?_,
    fun key hlt habsent hkey => ?_, fun d _ => ?_⟩
  · rw [hstep] at hlt
    have hlt' : key < s.nextKey + 1 := hlt
    exact (hpresent key).mpr (.inr (by omega))
  · rcases (hpresent key).mp hkey with hkey | rfl
    · exact habsent hkey
    · exact absurd hlt (Nat.lt_irrefl _)
  · rw [hstep]
    exact currentKey_setQueue (currentKey_push (h.settled c) task) d

theorem conserves_same {e : LockedSection n} (hstep : s.step e = s) : Conserves s e :=
  conserves_of_present (fun key => by rw [hstep]) (by rw [hstep]) fun d _ => by rw [hstep]

theorem conserves_steal {e : LockedSection n} (thief : Fin n) {victim : Fin n}
    (hstep : s.step e = { s.setQueue victim ((s.queues victim).removeAt idx) with
      inFlight := s.inFlight ++ [(thief, task)] })
    (hget : (s.queues victim).tasks[idx]? = some task) (hne : idx ≠ (s.queues victim).current) :
    Conserves s e := by
  refine conserves_of_present (fun key => ?_) (by rw [hstep]; rfl) fun d _ => ?_
  · rw [hstep, present_takeTask thief hget]
  · rw [hstep]
    exact currentKey_setQueue (keys_removeAt_current hne) d

theorem conserves_finishSteal (h : Conserved s) {e : LockedSection n} {thief : Fin n}
    (hstep : s.step e = { s.setQueue thief ((s.queues thief).push task.resetQuantum) with
      inFlight := s.inFlight.eraseIdx entry }) (hget : s.inFlight[entry]? = some (thief, task)) :
    Conserves s e := by
  refine conserves_of_present (fun key => ?_) (by rw [hstep]; rfl) fun d _ => ?_
  · rw [hstep, present_putTask hget]
  · rw [hstep]
    exact currentKey_setQueue (currentKey_push (h.settled thief) _) d

theorem conserves_reap (c : Fin n) : Conserves s (.reap c) := by
  have hstep : s.step (.reap c) = s.setQueue c (s.queues c).reapDeadTasks := rfl
  have hsub : (s.queues c).reapDeadTasks.keys.Sublist (s.queues c).keys :=
    ((reapFrom_sublist _ _ _).map _).map _
  refine ⟨fun key hkey => ?_, fun key hle hlt => absurd hlt (Nat.not_lt.mpr hle),
    fun key _ habsent hkey => habsent ?_, fun d _ =>
      currentKey_setQueue (currentKey_reapFrom _ _) d⟩
  · rw [hstep, present_setQueue]
    rcases (present_split c).mp hkey with hkey | hkey
    · obtain ⟨task, hmem, rfl⟩ := mem_keys.mp hkey
      rcases mem_reapFrom hmem (s.queues c).tasks.length 0 with hstays | hdead
      · exact .inl (.inl (mem_keys.mpr ⟨task, hstays, rfl⟩))
      · exact .inr ⟨c, task, rfl, hmem, rfl, hdead⟩
    · exact .inl (.inr hkey)
  · rw [hstep, present_setQueue] at hkey
    exact (present_split c).mpr (hkey.imp_left fun hkey => hsub.subset hkey)

theorem Conserved.conserves (h : Conserved s) (e : LockedSection n) : Conserves s e := by
  cases e with
  | spawn c stackBase => exact conserves_spawn h rfl rfl
  | spawnUser c stackBase cr3 => exact conserves_spawn h rfl rfl
  | yieldNow c =>
    refine conserves_schedule rfl (yieldNow_scheduled _) fun hstays => ?_
    by_contra hsome
    exact hstays ⟨rfl, Option.isSome_iff_ne_none.mpr hsome⟩
  | preemptSchedule c =>
    refine conserves_schedule rfl (preemptSchedule_scheduled _) fun hstays => ?_
    by_contra hsome
    exact hstays ⟨rfl, Option.isSome_iff_ne_none.mpr hsome⟩
  | stealTask thief victim =>
    rcases step_stealTask_cases s thief victim with hsame | ⟨idx, task, hget, -, hne, -, hstep⟩
    · exact conserves_same hsame
    · exact conserves_steal thief hstep hget hne
  | finishSteal entry =>
    rcases step_finishSteal_cases s entry with hsame | ⟨thief, task, hget, hstep⟩
    · exact conserves_same hsame
    · exact conserves_finishSteal h hstep hget
  | sleep c wakeTick =>
    exact conserves_relabel_current rfl (keys_of_cores (cores_modifyAt (core_setState _) _)) rfl
  | exit c =>
    exact conserves_relabel_current rfl (keys_of_cores (cores_modifyAt (core_setState _) _)) rfl
  | smpTimerTick c now => exact conserves_relabel_current rfl (keys_timerTick now) rfl
  | wake c now =>
    exact conserves_relabel_current rfl (keys_of_cores (cores_map (core_wake now))) rfl
  | countTick c =>
    exact conserves_relabel_current rfl (keys_of_cores (cores_modifyAt core_countTick _)) rfl
  | kill c tid => exact conserves_relabel_current rfl (keys_markDead tid) (current_markDead tid)
  | reap c => exact conserves_reap c

theorem after_take_succ_queues {sections : List (LockedSection n)} {i : Nat} {e : LockedSection n}
    (h : sections[i]? = some e) :
    s.after (sections.take (i + 1)) = (s.after (sections.take i)).step e := by
  rw [List.take_add_one, h, Option.toList_some, RunQueues.after, List.foldl_append]
  rfl

theorem present_or_reaped (h : Conserved s) (hpresent : ∀ key < s.nextKey, s.Present key)
    (sections : List (LockedSection n)) :
    ∀ key < (s.after sections).nextKey, (s.after sections).Present key ∨
      ∃ i e, sections[i]? = some e ∧ (s.after (sections.take i)).Reaps e key := by
  -- the first k sections, one after the other
  have hprefix : ∀ k ≤ sections.length, ∀ key < (s.after (sections.take k)).nextKey,
      (s.after (sections.take k)).Present key ∨
        ∃ i e, sections[i]? = some e ∧ (s.after (sections.take i)).Reaps e key := by
    intro k hk
    induction k with
    | zero => exact fun key hkey => .inl (hpresent key hkey)
    | succ k ih =>
      obtain ⟨e, he⟩ : ∃ e, sections[k]? = some e := ⟨_, List.getElem?_eq_getElem (by omega)⟩
      have hconserves := (conserved_after h (sections.take k)).conserves e
      intro key hkey
      rw [after_take_succ_queues he] at hkey ⊢
      rcases Nat.lt_or_ge key (s.after (sections.take k)).nextKey with hold | hnew
      · rcases ih (by omega) key hold with hkept | hreaped
        · exact (hconserves.kept key hkept).imp_right fun hreaps => ⟨k, e, he, hreaps⟩
        · exact .inr hreaped
      · exact .inl (hconserves.born key hnew hkey)
  have hall := hprefix sections.length le_rfl
  rwa [List.take_length] at hall

theorem boot_present (n sentinelStack : Nat) :
    ∀ key < (RunQueues.boot n sentinelStack).nextKey,
      0 < n → (RunQueues.boot n sentinelStack).Present key := by
  intro key hkey hn
  have hkey' : key < n + 1 := hkey
  rcases Nat.lt_succ_iff_lt_or_eq.mp hkey' with hlt | rfl
  · refine .inl ⟨⟨key, hlt⟩, ?_⟩
    show key ∈ ((System.boot n sentinelStack 0).cpus ⟨key, hlt⟩).sched.keys
    rw [boot_keys]
    split <;> simp
  · refine .inl ⟨⟨0, hn⟩, ?_⟩
    show key ∈ ((System.boot key sentinelStack 0).cpus ⟨0, hn⟩).sched.keys
    rw [boot_keys]
    simp

end Lifetime

/-- Every interleaving of the locked sections of any number of CPUs conserves the tasks:
each is at one place until it is reaped, and it is dead then; the current index of a queue
follows its task, and only that one can be running. -/
theorem tasks_conserved (n sentinelStack : Nat) (sections : List (LockedSection (n + 1))) :
    Conserved ((RunQueues.boot (n + 1) sentinelStack).after sections) ∧
    (∀ key < ((RunQueues.boot (n + 1) sentinelStack).after sections).nextKey,
      ((RunQueues.boot (n + 1) sentinelStack).after sections).Present key ∨
        ∃ i e, sections[i]? = some e ∧
          ((RunQueues.boot (n + 1) sentinelStack).after (sections.take i)).Reaps e key) ∧
    ∀ e, Conserves ((RunQueues.boot (n + 1) sentinelStack).after sections) e := by
  have hboot := conserved_boot (n + 1) sentinelStack
  have hafter := conserved_after hboot sections
  refine ⟨hafter, present_or_reaped hboot (fun key hkey => ?_) sections, hafter.conserves⟩
  exact boot_present (n + 1) sentinelStack key hkey (Nat.succ_pos n)

end AuraOS.Scheduling
