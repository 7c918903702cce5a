import AuraOS.RoundRobin
import AuraOS.TaskConservation

namespace AuraOS.Scheduling

open RoundRobin

variable {n t m : Nat} {s : RunQueues n} {c : Fin n} {sched : CpuScheduler} {chosen : List Nat}

def RunQueues.selects (s : RunQueues n) (c : Fin n) : LockedSection n → Option Nat
  | .yieldNow d => if d = c then (s.queues d).yieldNow.1.map Switch.nextKey else none
  | .preemptSchedule d =>
    if d = c then (s.queues d).preemptSchedule.1.map Switch.nextKey else none
  | _ => none

def RunQueues.selections (s : RunQueues n) (c : Fin n) : List (LockedSection n) → List Nat
  | [] => []
  | e :: rest => (s.selects c e).toList ++ (s.step e).selections c rest

def RunQueues.AddsTo (s : RunQueues n) (c : Fin n) : LockedSection n → Prop
  | .spawn d _ => d = c
  | .spawnUser d _ _ => d = c
  | .finishSteal entry => ∃ task, s.inFlight[entry]? = some (c, task)
  | _ => False

def CpuScheduler.HasReady (sched : CpuScheduler) (key : Nat) : Prop :=
  ∃ task ∈ sched.tasks, task.key = key ∧ task.state = .ready

def RunQueues.Awaits (s : RunQueues n) (c : Fin n) (t : Nat) : List (LockedSection n) → Prop
  | [] => (s.queues c).HasReady t
  | e :: rest => (s.queues c).HasReady t ∧ ¬ s.AddsTo c e ∧
      (s.selects c e ≠ some t → (s.step e).Awaits c t rest)

theorem CpuScheduler.HasReady.resetQuantum (h : sched.HasReady t) (idx : Nat) :
    (sched.modifyAt idx Task.resetQuantum).HasReady t := by
  obtain ⟨task, hmem, hkey, hstate⟩ := h
  obtain ⟨i, hi⟩ := List.mem_iff_getElem?.mp hmem
  have hget := getElem?_modifyAt sched idx i Task.resetQuantum
  rw [hi] at hget
  split at hget
  · exact ⟨_, List.mem_of_getElem? hget, hkey, hstate⟩
  · exact ⟨_, List.mem_of_getElem? hget, hkey, hstate⟩

theorem waits_goesOn {next : Nat} {task : Task} (hgoes : sched.GoesOn next task)
    (hwaits : Waits sched.keys sched.current t m chosen) (hready : sched.HasReady t)
    (hne : task.key ≠ t) : Waits sched.keys next t m (chosen ++ [task.key]) := by
  obtain ⟨waiting, hmem, rfl, hstate⟩ := hready
  obtain ⟨k, hk⟩ := List.mem_iff_getElem?.mp hmem
  have hkey : sched.keys[k]? = some waiting.key := by
    rw [getElem?_keys, hk, Option.map_some]
  have hwaiting : sched.isReady k = true := isReady_iff.mpr ⟨waiting, hk, hstate⟩
  obtain ⟨i, hi, hpick, -, hbefore⟩ := pickNext_of_ready hwaiting
  have hnext : (sched.current + (i + 1)) % sched.keys.length = next := by
    rw [length_keys]
    exact Option.some.inj (hpick.symm.trans hgoes.pick)
  have hchosen : sched.keys[next]? = some task.key := by
    rw [getElem?_keys, hgoes.get, Option.map_some]
  have horder {j : Nat} (hj : j ≤ i) : (sched.keys.rotate (sched.current + 1))[j]? =
      sched.keys[(sched.current + (j + 1)) % sched.keys.length]? := by
    rw [List.getElem?_rotate (by rw [length_keys]; omega)]
    congr 2
    omega
  rw [← hnext]
  refine hwaits.choose ?_ (fun j hj heq => ?_) (List.mem_of_getElem? hkey)
  · rw [horder le_rfl, hnext, hchosen]
  rw [horder hj] at heq
  rcases hj.lt_or_eq with hlt | rfl
  · have hat := List.getElem?_inj (List.getElem?_eq_some_iff.mp heq).1 hwaits.distinct
      |>.mp (heq.trans hkey.symm)
    rw [length_keys] at hat
    rw [← hat, hbefore j hlt] at hwaiting
    cases hwaiting
  · rw [hnext, hchosen] at heq
    exact hne (Option.some.inj heq)

theorem waits_yieldNow (hwaits : Waits sched.keys sched.current t m chosen)
    (hready : sched.HasReady t) (hne : sched.yieldNow.1.map Switch.nextKey ≠ some t) :
    Waits sched.yieldNow.2.keys sched.yieldNow.2.current t m
      (chosen ++ (sched.yieldNow.1.map Switch.nextKey).toList) := by
  rw [keys_of_cores (yieldNow_scheduled sched).cores]
  rcases yieldNow_cases sched with hstay | ⟨next, task, hgoes, hswitch⟩
  · rw [hstay, Option.map_none, Option.toList_none, List.append_nil]
    exact hwaits
  · rw [hswitch, CpuScheduler.switchTo, hgoes.get] at hne ⊢
    exact waits_goesOn hgoes hwaits hready fun heq => hne (congrArg some heq)

theorem waits_preemptSchedule (hwaits : Waits sched.keys sched.current t m chosen)
    (hready : sched.HasReady t) (hne : sched.preemptSchedule.1.map Switch.nextKey ≠ some t) :
    Waits sched.preemptSchedule.2.keys sched.preemptSchedule.2.current t m
      (chosen ++ (sched.preemptSchedule.1.map Switch.nextKey).toList) := by
  have hkeys : (sched.modifyAt sched.current Task.resetQuantum).keys = sched.keys :=
    keys_of_cores (cores_modifyAt core_resetQuantum _)
  rw [keys_of_cores (preemptSchedule_scheduled sched).cores]
  rcases preemptSchedule_cases sched with hstay | hstay | ⟨next, task, hgoes, hswitch⟩
  · rw [hstay, Option.map_none, Option.toList_none, List.append_nil]
    exact hwaits
  · rw [hstay, Option.map_none, Option.toList_none, List.append_nil]
    exact hwaits
  · rw [hswitch, CpuScheduler.switchTo, hgoes.get] at hne ⊢
    rw [← hkeys] at hwaits ⊢
    exact waits_goesOn hgoes hwaits (hready.resetQuantum _) fun heq => hne (congrArg some heq)

def Passing (t m : Nat) (chosen : List Nat) (sched : CpuScheduler) : Prop :=
  t ∈ sched.keys → Waits sched.keys sched.current t m chosen

theorem Passing.relabel {sched' : CpuScheduler} (h : Passing t m chosen sched)
    (hkeys : sched'.keys = sched.keys) (hcurrent : sched'.current = sched.current) :
    Passing t m chosen sched' := by
  rw [Passing, hkeys, hcurrent]
  exact h

theorem Passing.removeAt (h : Passing t m chosen sched) {idx : Nat} (hne : idx ≠ sched.current) :
    Passing t m chosen (sched.removeAt idx) := by
  intro ht
  rw [keys_removeAt] at ht ⊢
  exact (h ((List.eraseIdx_sublist _ _).subset ht)).erase hne ht

theorem Passing.setQueue {d : Fin n} (h : Passing t m chosen (s.queues c))
    (hnew : Passing t m chosen (s.queues d) → Passing t m chosen sched) :
    Passing t m chosen ((s.setQueue d sched).queues c) := by
  by_cases hd : c = d
  · subst hd
    rw [setQueue_queues_self]
    exact hnew h
  · rw [setQueue_queues_ne hd]
    exact h

theorem passing_step (hwaits : Waits (s.queues c).keys (s.queues c).current t m chosen)
    (hready : (s.queues c).HasReady t) {e : LockedSection n} (hadds : ¬ s.AddsTo c e)
    (hne : s.selects c e ≠ some t) :
    Passing t m (chosen ++ (s.selects c e).toList) ((s.step e).queues c) := by
  have h : Passing t m chosen (s.queues c) := fun _ => hwaits
  have hturn {d : Fin n} {result : Option Switch × CpuScheduler}
      (hturns : Waits (s.queues d).keys (s.queues d).current t m chosen →
        (s.queues d).HasReady t → result.1.map Switch.nextKey ≠ some t →
        Waits result.2.keys result.2.current t m (chosen ++ (result.1.map Switch.nextKey).toList))
      (hne : (if d = c then result.1.map Switch.nextKey else none) ≠ some t) :
      Passing t m (chosen ++ (if d = c then result.1.map Switch.nextKey else none).toList)
        ((s.setQueue d result.2).queues c) := by
    by_cases hd : d = c
    · subst hd
      rw [if_pos rfl] at hne ⊢
      rw [setQueue_queues_self]
      exact fun _ => hturns hwaits hready hne
    · rw [if_neg hd, setQueue_queues_ne (Ne.symm hd), Option.toList_none, List.append_nil]
      exact h
  have hquiet {sched : CpuScheduler} (hsched : Passing t m chosen sched) :
      Passing t m (chosen ++ (none : Option Nat).toList) sched := by
    rwa [Option.toList_none, List.append_nil]
  have hpush {d : Fin n} {task : Task} (hd : d ≠ c) :
      Passing t m chosen ((s.setQueue d ((s.queues d).push task)).queues c) := by
    rw [setQueue_queues_ne hd.symm]
    exact h
  have hsame {d : Fin n} {sched : CpuScheduler} (hkeys : sched.keys = (s.queues d).keys)
      (hcurrent : sched.current = (s.queues d).current) :
      Passing t m chosen ((s.setQueue d sched).queues c) :=
    h.setQueue fun hd => hd.relabel hkeys hcurrent
  cases e with
  | spawn d stackBase => exact hquiet (hpush hadds)
  | spawnUser d stackBase cr3 => exact hquiet (hpush hadds)
  | yieldNow d => exact hturn waits_yieldNow hne
  | preemptSchedule d => exact hturn waits_preemptSchedule hne
  | stealTask thief victim =>
    refine hquiet ?_
    rcases step_stealTask_cases s thief victim with hstep | ⟨idx, task, -, -, hidx, -, hstep⟩
    · rwa [hstep]
    · rw [hstep]
      exact h.setQueue fun hd => hd.removeAt hidx
  | finishSteal entry =>
    refine hquiet ?_
    rcases step_finishSteal_cases s entry with hstep | ⟨thief, task, hget, hstep⟩
    · rwa [hstep]
    · rw [hstep]
      exact hpush fun heq => hadds ⟨task, heq ▸ hget⟩
  | sleep d wakeTick =>
    exact hquiet (hsame (keys_of_cores (cores_modifyAt (core_setState _) _)) rfl)
  | exit d => exact hquiet (hsame (keys_of_cores (cores_modifyAt (core_setState _) _)) rfl)
  | smpTimerTick d now => exact hquiet (hsame (keys_timerTick now) rfl)
  | wake d now => exact hquiet (hsame (keys_of_cores (cores_map (core_wake now))) rfl)
  | countTick d => exact hquiet (hsame (keys_of_cores (cores_modifyAt core_countTick _)) rfl)
  | kill d tid => exact hquiet (hsame (keys_markDead tid) (current_markDead tid))
  | reap d =>
    exact hquiet (h.setQueue fun hd =>
      reapFrom_induction (fun _ _ _ _ _ hidx hp => hp.removeAt hidx) hd _ _)

theorem RunQueues.Awaits.ready {sections : List (LockedSection n)}
    (h : s.Awaits c t sections) : (s.queues c).HasReady t := by
  cases sections with
  | nil => exact h
  | cons e rest => exact h.1

theorem waits_run {sections : List (LockedSection n)}
    (hwaits : Waits (s.queues c).keys (s.queues c).current t m chosen)
    (hawaits : s.Awaits c t sections) :
    (chosen ++ (s.selections c sections).takeWhile (· ≠ t)).Nodup ∧
      (chosen ++ (s.selections c sections).takeWhile (· ≠ t)).length < m := by
  induction sections generalizing s chosen with
  | nil =>
    rw [RunQueues.selections, List.takeWhile_nil, List.append_nil]
    exact hwaits.served
  | cons e rest ih =>
    obtain ⟨hready, hadds, hrest⟩ := hawaits
    simp only [RunQueues.selections]
    by_cases hsel : s.selects c e = some t
    · rw [hsel, Option.toList_some, List.singleton_append, List.takeWhile_cons_of_neg (by simp),
        List.append_nil]
      exact hwaits.served
    · have hnext := hrest hsel
      obtain ⟨task, hmem, hkey, -⟩ := hnext.ready
      have hwaits' := passing_step hwaits hready hadds hsel (mem_keys.mpr ⟨task, hmem, hkey⟩)
      have hothers : ∀ u ∈ (s.selects c e).toList, decide (u ≠ t) = true := by
        intro u hu
        refine decide_eq_true ?_
        rintro rfl
        exact hsel (Option.mem_toList.mp hu)
      rw [List.takeWhile_append_of_pos hothers, ← List.append_assoc]
      exact ih hwaits' hnext

/-- While a ready task waits in a queue that no task joins, no other one is chosen twice, and
at most all the others are chosen before it. -/
theorem bounded_bypass (s : RunQueues n) (c : Fin n) (t : Nat) (sections : List (LockedSection n))
    (hdistinct : (s.queues c).keys.Nodup) (hawaits : s.Awaits c t sections) :
    ((s.selections c sections).takeWhile (· ≠ t)).Nodup ∧
      ((s.selections c sections).takeWhile (· ≠ t)).length ≤ (s.queues c).tasks.length - 1 ∧
      ((s.queues c).tasks.length ≤ (s.selections c sections).length →
        t ∈ s.selections c sections) := by
  obtain ⟨task, hmem, hkey, -⟩ := hawaits.ready
  obtain ⟨hnodup, hlength⟩ := waits_run (.start hdistinct (length_keys _).le
    (mem_keys.mpr ⟨task, hmem, hkey⟩)) hawaits
  refine ⟨hnodup, Nat.le_sub_one_of_lt hlength, fun hlong => ?_⟩
  by_contra habsent
  have hall : ∀ u ∈ s.selections c sections, decide (u ≠ t) = true := fun u hu =>
    decide_eq_true fun heq => habsent (heq ▸ hu)
  rw [List.takeWhile_eq_self_iff.mpr hall] at hlength
  exact absurd hlong (Nat.not_le.mpr hlength)

def threeTasks : RunQueues 1 :=
  ⟨fun _ => ⟨[Task.rootForCpu 0 0, Task.new 1 0x20000 1, Task.new 2 0x30000 2], 0, 4, 0⟩, [], 3, 3⟩

/-- The second of them is chosen after the first one. -/
theorem bypassed_once :
    threeTasks.selections 0 [.yieldNow 0, .yieldNow 0] = [1, 2] ∧
      ((threeTasks.selections 0 [.yieldNow 0, .yieldNow 0]).takeWhile (· ≠ 2)).length ≤ 2 := by
  refine ⟨by decide, (bounded_bypass threeTasks 0 2 _ (by decide) ?_).2.1⟩
  have hready : ((threeTasks.step (.yieldNow 0)).queues 0).HasReady 2 :=
    ⟨Task.new 2 0x30000 2, by decide, rfl, rfl⟩
  refine ⟨⟨Task.new 2 0x30000 2, by decide, rfl, rfl⟩, id, fun _ => ⟨hready, id, fun hne => ?_⟩⟩
  exact absurd (by decide) hne

end AuraOS.Scheduling
