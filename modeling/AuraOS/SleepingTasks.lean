import AuraOS.DeadTasks
import AuraOS.FairTurns

namespace AuraOS.Scheduling

open GuardedRuns RoundRobin

variable {n : Nat}

/-- The ticks that `sleep_ms` asks for; the sum wraps around. -/
def sleepMsTicks (ms : Nat) : Nat :=
  if ms = 0 then 0 else max ((ms + 9) % 2 ^ 64 / 10) 1

/-- The target that `sleep_ticks` records. -/
def wakeTarget (now ticks : Nat) : Nat :=
  (now + ticks) % 2 ^ 64

/-- The tick counter read in the section is below the target, and the section does not put
the task to sleep once more. -/
def RunQueues.Undue (target key : Nat) (s : RunQueues n) : LockedSection n → Prop
  | .smpTimerTick _ now | .wake _ now => now < target
  | .sleep c _ => (s.queues c).currentKey ≠ some key
  | _ => True

section Sleep

variable {s : RunQueues n} {c : Fin n} {key target : Nat}

theorem le_wakeTarget_iff {now ms : Nat} (hnow : now < 2 ^ 64) (hms : 0 < ms) (hlt : ms < 2 ^ 64) :
    now + (ms + 9) / 10 ≤ wakeTarget now (sleepMsTicks ms) ↔
      ms + 9 < 2 ^ 64 ∧ now + (ms + 9) / 10 < 2 ^ 64 := by
  have hticks : sleepMsTicks ms = max ((ms + 9) % 2 ^ 64 / 10) 1 := if_neg (by omega)
  rw [hticks, wakeTarget]
  omega

def Asleep (target : Nat) (state : TaskState) : Prop :=
  state = .sleeping target ∨ state = .dead

theorem resting_asleep (target : Nat) : Resting (Asleep target) :=
  ⟨nofun, nofun, .inr rfl⟩

theorem permits_of_undue {e : LockedSection n} (h : s.Undue target key e) :
    s.Permits (Asleep target) key e := by
  cases e with
  | sleep c wakeTick =>
    intro task hget hkey
    refine h ?_
    rw [CpuScheduler.currentKey, getElem?_keys, hget, ← hkey]
    rfl
  | smpTimerTick c now | wake c now =>
    rintro wakeTick hle (hsleeping | hdead)
    · cases hsleeping
      exact absurd h (Nat.not_lt.mpr hle)
    · cases hdead
  | _ => trivial

theorem rests_of_sleep (hs : Conserved s)
    (hkey : ((s.step (.sleep c target)).queues c).currentKey = some key) :
    (s.step (.sleep c target)).Rests (Asleep target) key := by
  rw [show (s.step (.sleep c target)).queues c = _ from setQueue_queues_self c _,
    CpuScheduler.currentKey, getElem?_keys] at hkey
  obtain ⟨task, hget, rfl⟩ := Option.map_eq_some_iff.mp hkey
  have hasleep : task.state = .sleeping target := by
    rw [CpuScheduler.sleep, getElem?_modifyAt] at hget
    obtain ⟨old, -, rfl⟩ := Option.map_eq_some_iff.mp ((if_pos rfl).symm.trans hget)
    rfl
  have hmem : task ∈ ((s.step (.sleep c target)).queues c).tasks := by
    rw [show (s.step (.sleep c target)).queues c = _ from setQueue_queues_self c _]
    exact List.mem_of_getElem? hget
  intro other hhas hsame
  rw [(hs.step (.sleep c target)).eq_of_key hmem hhas hsame]
  exact .inl hasleep

theorem RunQueues.Rests.after (h : s.Rests (Asleep target) key) (hs : Conserved s)
    (hlt : key < s.nextKey) {sections : List (LockedSection n)}
    (hundue : Guarded RunQueues.step (RunQueues.Undue target key) s sections) :
    (s.after sections).Rests (Asleep target) key := by
  have hstep : ∀ (s : RunQueues n) e,
      (s.Rests (Asleep target) key ∧ Conserved s ∧ key < s.nextKey) →
      s.Undue target key e →
        ((s.step e).Rests (Asleep target) key ∧ Conserved (s.step e) ∧ key < (s.step e).nextKey) :=
    fun s e ⟨h, hs, hlt⟩ hundue =>
      ⟨h.step (resting_asleep target) hs hlt e (permits_of_undue hundue),
      hs.step e, Nat.lt_of_lt_of_le hlt (nextKey_le_step e)⟩
  exact (invariant_of_guarded hstep ⟨h, hs, hlt⟩ hundue).1

end Sleep

section Turns

variable {m t : Nat} {s : RunQueues n} {c : Fin n} {sched : CpuScheduler} {task : Task}
  {chosen : List Nat}

theorem yieldNow_of_goesOn {next : Nat} (hbound : sched.current < sched.tasks.length)
    (hgoes : sched.GoesOn next task) : sched.yieldNow = sched.switchTo next := by
  have hlt := (List.getElem?_eq_some_iff.mp hgoes.get).1
  have hother := hgoes.other
  have htwo : ¬ sched.tasks.length < 2 := by omega
  simp only [CpuScheduler.yieldNow, if_neg htwo, hgoes.pick, if_neg hother]

theorem step_yieldNow_of_goesOn {next : Nat} (hs : Conserved s)
    (hgoes : (s.queues c).GoesOn next task) :
    (s.step (.yieldNow c)).queues c = ((s.queues c).switchTo next).2 := by
  rw [show (s.step (.yieldNow c)).queues c = _ from setQueue_queues_self c _,
    yieldNow_of_goesOn (hs.settled c).bound hgoes]

theorem getElem?_switchTo {next i : Nat} (hgoes : sched.GoesOn next task) (hi : next ≠ i) :
    (sched.switchTo next).2.tasks[i]? =
      if sched.current = i then sched.tasks[i]?.map Task.preempted else sched.tasks[i]? := by
  simp only [CpuScheduler.switchTo, hgoes.get]
  rw [getElem?_modifyAt, if_neg hi, getElem?_modifyAt]

theorem CpuScheduler.HasReady.switchTo {next : Nat} (h : sched.HasReady t)
    (hgoes : sched.GoesOn next task) (hne : task.key ≠ t) :
    (sched.switchTo next).2.HasReady t := by
  obtain ⟨waiting, hmem, hkey, hstate⟩ := h
  obtain ⟨i, hi⟩ := List.mem_iff_getElem?.mp hmem
  have hother : next ≠ i := by
    rintro rfl
    rw [hgoes.get] at hi
    cases hi
    exact hne hkey
  have hkept : waiting.preempted = waiting := if_neg (by simp [hstate])
  have hget := getElem?_switchTo hgoes hother
  rw [hi, Option.map_some, hkept, ite_self] at hget
  exact ⟨waiting, List.mem_of_getElem? hget, hkey, hstate⟩

theorem pickNext_ne_current (hbound : sched.current < sched.tasks.length) {next : Nat}
    (hpick : sched.pickNext = some next) (hget : sched.tasks[next]? = some task)
    (hready : sched.HasReady t) (hne : task.key ≠ t) : next ≠ sched.current := by
  obtain ⟨waiting, hmem, hkey, hstate⟩ := hready
  obtain ⟨j, hj⟩ := List.mem_iff_getElem?.mp
    (List.mem_rotate.mpr hmem : waiting ∈ sched.tasks.rotate (sched.current + 1))
  have hlt : j < sched.tasks.length := by
    simpa using (List.getElem?_eq_some_iff.mp hj).1
  rw [getElem?_rotate_tasks sched hlt] at hj
  obtain ⟨i, hi, hpick', -, hbefore⟩ := pickNext_of_ready (isReady_iff.mpr ⟨waiting, hj, hstate⟩)
  rw [hpick, Option.some.injEq] at hpick'
  have hle : i ≤ j := by
    by_contra hji
    have hnot := hbefore j (by omega)
    rw [isReady_iff.mpr ⟨waiting, hj, hstate⟩] at hnot
    cases hnot
  intro hsame
  -- the search has gone once around, and the waiting task is not met before its end
  have hround : i + 1 = sched.tasks.length := by
    rw [hsame] at hpick'
    rcases Nat.lt_or_ge (sched.current + (i + 1)) sched.tasks.length with hsmall | hlarge
    · rw [Nat.mod_eq_of_lt hsmall] at hpick'
      omega
    · rw [Nat.mod_eq_sub_mod hlarge, Nat.mod_eq_of_lt (by omega)] at hpick'
      omega
  have hij : j = i := by omega
  rw [hij, ← hpick', hget] at hj
  cases hj
  exact hne hkey

theorem exists_turn (hs : Conserved s)
    (hwaits : Waits (s.queues c).keys (s.queues c).current t m chosen)
    (hready : (s.queues c).HasReady t) :
    ∃ sections, (∀ e ∈ sections, e = .yieldNow c) ∧ ¬ (s.after sections).NotChosen t := by
  -- on the number of tasks that can still be chosen before this one
  induction hleft : m - chosen.length generalizing s chosen with
  | zero =>
    have hserved := hwaits.served.2
    omega
  | succ left ih =>
    obtain ⟨waiting, hmem, -, hstate⟩ := id hready
    obtain ⟨k, hk⟩ := List.mem_iff_getElem?.mp hmem
    obtain ⟨i, -, hpick, hnext, -⟩ := pickNext_of_ready (isReady_iff.mpr ⟨waiting, hk, hstate⟩)
    generalize ((s.queues c).current + (i + 1)) % (s.queues c).tasks.length = next at hpick hnext
    obtain ⟨task, hget, hstate⟩ := isReady_iff.mp hnext
    by_cases hchosen : task.key = t
    · exact ⟨[], by simp, fun hnot => hnot c next task hpick hget hchosen⟩
    have hother := pickNext_ne_current (hs.settled c).bound hpick hget hready hchosen
    have hgoes : (s.queues c).GoesOn next task := ⟨hpick, hother, hget, hstate⟩
    have hstep := step_yieldNow_of_goesOn hs hgoes
    have hcurrent : ((s.queues c).switchTo next).2.current = next := by
      simp only [CpuScheduler.switchTo, hget]
    have hwaits' : Waits ((s.step (.yieldNow c)).queues c).keys
        ((s.step (.yieldNow c)).queues c).current t m (chosen ++ [task.key]) := by
      rw [hstep, keys_of_cores (switchTo_scheduled _ hother).cores, hcurrent]
      exact waits_goesOn hgoes hwaits hready hchosen
    have hready' : ((s.step (.yieldNow c)).queues c).HasReady t := by
      rw [hstep]
      exact hready.switchTo hgoes hchosen
    have hfewer : m - (chosen ++ [task.key]).length = left := by
      rw [List.length_append, List.length_singleton]
      omega
    obtain ⟨sections, hyields, hturn⟩ := ih (hs.step _) hwaits' hready' hfewer
    refine ⟨.yieldNow c :: sections, ?_, hturn⟩
    simpa using hyields

theorem exists_turn_of_ready (hs : Conserved s) (hready : (s.queues c).HasReady t) :
    ∃ sections, (∀ e ∈ sections, e = .yieldNow c) ∧ ¬ (s.after sections).NotChosen t := by
  obtain ⟨task, hmem, hkey, -⟩ := id hready
  exact exists_turn hs (.start (hs.distinct.queue_nodup c) le_rfl
    (mem_keys.mpr ⟨task, hmem, hkey⟩)) hready

theorem pickNext_of_running (hget : sched.tasks[sched.current]? = some task)
    (hrunning : task.state = .running) : ∃ next, sched.pickNext = some next := by
  have hmem := List.mem_of_getElem? hget
  have hempty : sched.tasks.isEmpty = false := by
    simpa using List.ne_nil_of_mem hmem
  simp only [CpuScheduler.pickNext, hempty, Bool.false_eq_true, if_false]
  split
  · exact ⟨_, rfl⟩
  · rw [hget]
    exact ⟨_, if_pos (.inl hrunning)⟩

theorem exists_turn_of_current (hs : Conserved s)
    (hget : (s.queues c).tasks[(s.queues c).current]? = some task)
    (hstate : task.state = .running ∨ task.state = .ready) :
    ∃ sections, (∀ e ∈ sections, e = .yieldNow c) ∧ ¬ (s.after sections).NotChosen task.key := by
  rcases hstate with hrunning | hready
  · obtain ⟨next, hpick⟩ := pickNext_of_running hget hrunning
    by_cases hsame : next = (s.queues c).current
    · subst hsame
      exact ⟨[], by simp, fun hnot => hnot c _ task hpick hget rfl⟩
    -- another task is chosen, and this one is ready from then on
    obtain ⟨other, hgoes⟩ := goesOn_of_pickNext hpick hsame
    have hpreempted := getElem?_switchTo hgoes hsame
    rw [if_pos rfl, hget, Option.map_some, Task.preempted, if_pos hrunning] at hpreempted
    have hready : ((s.step (.yieldNow c)).queues c).HasReady task.key := by
      rw [step_yieldNow_of_goesOn hs hgoes]
      exact ⟨_, List.mem_of_getElem? hpreempted, rfl, rfl⟩
    obtain ⟨sections, hyields, hturn⟩ := exists_turn_of_ready (hs.step (.yieldNow c)) hready
    refine ⟨.yieldNow c :: sections, ?_, hturn⟩
    simpa using hyields
  · exact exists_turn_of_ready hs ⟨task, List.mem_of_getElem? hget, rfl, hready⟩

end Turns

section Caller

variable {s : RunQueues n} {c d : Fin n} {key now target : Nat}

/-- The task executes, as the current task of a queue; if it has slept, its time is over. -/
def RunQueues.Executes (s : RunQueues n) (d : Fin n) (key now : Nat) : Prop :=
  ∃ task, (s.queues d).tasks[(s.queues d).current]? = some task ∧ task.key = key ∧
    (task.wake now).state ∈ [TaskState.running, .ready]

theorem exists_early_turn (hs : Conserved s) (hcaller : s.Executes d key now)
    (hearly : now < target) (hother : (s.queues c).currentKey ≠ some key) :
    ∃ sections,
      Guarded RunQueues.step (RunQueues.Undue target key) (s.step (.sleep c target)) sections ∧
        ¬ ((s.step (.sleep c target)).after sections).NotChosen key := by
  obtain ⟨task, hget, rfl, hawake⟩ := hcaller
  have hdc : d ≠ c := by
    rintro rfl
    refine hother ?_
    rw [CpuScheduler.currentKey, getElem?_keys, hget]
    rfl
  have hwoken : (((s.step (.sleep c target)).step (.wake d now)).queues d).tasks[
      (((s.step (.sleep c target)).step (.wake d now)).queues d).current]? =
        some (task.wake now) := by
    have hkept : (s.step (.sleep c target)).queues d = s.queues d := setQueue_queues_ne hdc _
    have hqueue : ((s.step (.sleep c target)).step (.wake d now)).queues d =
        (s.queues d).wakeSleepers now := by
      rw [← hkept]
      exact setQueue_queues_self d _
    rw [hqueue, CpuScheduler.wakeSleepers, List.getElem?_map, hget, Option.map_some]
  obtain ⟨sections, hyields, hturn⟩ := exists_turn_of_current
    ((hs.step _).step _) hwoken (by simpa using hawake)
  have hkey : (task.wake now).key = task.key := congrArg Core.key (core_wake now task)
  rw [hkey] at hturn
  refine ⟨.wake d now :: sections, ⟨hearly, guarded_iff_getElem?.mpr ?_⟩, hturn⟩
  intro k e he
  rw [hyields e (List.mem_of_getElem? he)]
  trivial

end Caller

/-- A task that calls `sleep_ms` is not chosen before the recorded target, whatever the CPUs
do, and the target is no earlier than was asked for, exactly if neither sum wraps around and
the caller is the current task of the queue that the call locks. -/
theorem sleep_honoured_iff (n sentinelStack : Nat) (before : List (LockedSection n))
    (c d : Fin n) (key now ms : Nat)
    (hcaller : ((RunQueues.boot n sentinelStack).after before).Executes d key now)
    (hnow : now < 2 ^ 64) (hms : 0 < ms) (hlt : ms < 2 ^ 64) :
    let s := (RunQueues.boot n sentinelStack).after before
    let target := wakeTarget now (sleepMsTicks ms)
    let asleep := s.step (.sleep c target)
    (now + (ms + 9) / 10 ≤ target ∧
      ∀ sections, Guarded RunQueues.step (RunQueues.Undue target key) asleep sections →
        (asleep.after sections).NotChosen key) ↔
      ms + 9 < 2 ^ 64 ∧ now + (ms + 9) / 10 < 2 ^ 64 ∧ (s.queues c).currentKey = some key := by
  intro s target asleep
  have hs : Conserved s := conserved_after (conserved_boot n sentinelStack) before
  rw [← and_assoc, ← le_wakeTarget_iff hnow hms hlt]
  refine and_congr_right fun htarget => ⟨fun hrests => ?_, fun hcurrent sections hundue => ?_⟩
  · by_contra hother
    have hearly : now < target := by omega
    obtain ⟨sections, hundue, hturn⟩ := exists_early_turn hs hcaller hearly hother
    exact hturn (hrests sections hundue)
  · have hs' : Conserved asleep := hs.step _
    have hkey : (asleep.queues c).currentKey = some key := by
      rw [← hcurrent, show asleep.queues c = _ from setQueue_queues_self c _]
      exact currentKey_of_keys (keys_of_cores (cores_modifyAt (core_setState _) _)) rfl
    have hpresent : key < asleep.nextKey :=
      hs'.fresh key (.inl ⟨c, List.mem_of_getElem? hkey⟩)
    exact ((rests_of_sleep hs hkey).after hs' hpresent hundue).notChosen (resting_asleep target)

theorem sleep_honoured_iff_second : 1000 + (1000 + 9) / 10 ≤ wakeTarget 1000 (sleepMsTicks 1000) :=
  ((sleep_honoured_iff 1 0x20000 [] 0 0 0 1000 1000
    ⟨Task.rootForCpu 0 0, rfl, rfl, by decide⟩ (by decide) (by decide) (by decide)).mpr
      (by decide)).1

/-- Asked for the longest sleep there is, the task is due at the next tick. -/
theorem longest_sleep_wraps :
    wakeTarget 1000 (sleepMsTicks (2 ^ 64 - 1)) = 1001 ∧
      ¬ 1000 + (2 ^ 64 - 1 + 9) / 10 ≤ wakeTarget 1000 (sleepMsTicks (2 ^ 64 - 1)) := by
  decide

end AuraOS.Scheduling
