import AuraOS.TaskIdentifiers

namespace AuraOS.Scheduling

open DistinctQueues GuardedRuns

variable {n : Nat} {sched : CpuScheduler} {task : Task} {s : RunQueues n} {c : Fin n}

/-- The check of `yield_now` before it tries to steal. -/
def CpuScheduler.otherReady (sched : CpuScheduler) : Bool :=
  (List.range sched.tasks.length).any fun i => i ≠ sched.current && sched.isReady i

/-- The CPUs that `try_steal_task` visits, in the order of their offsets. -/
def victims (c : Fin n) : List (Fin n) :=
  (List.range (n - 1)).map fun offset => ⟨(c + (offset + 1)) % n, Nat.mod_lt _ c.pos⟩

/-- The loop of `try_steal_task`: the first task that can be had is taken over. -/
def RunQueues.stealFrom (c : Fin n) : List (Fin n) → RunQueues n → RunQueues n
  | [], s => s
  | victim :: rest, s =>
    if (s.queues victim).stealTask.1.isSome then
      (s.step (.stealTask c victim)).step (.finishSteal s.inFlight.length)
    else RunQueues.stealFrom c rest s

/-- `yield_now` on a CPU whose sections follow each other: what the last of them hands
to the context switch.  Without that the call returns to its caller. -/
def RunQueues.yieldCall (s : RunQueues n) (c : Fin n) : Option Switch :=
  let shouldSteal := !(s.queues c).otherReady && 1 < (s.queues c).tasks.length
  let s := if shouldSteal then s.stealFrom c (victims c) else s
  (s.queues c).yieldNow.1

section Exit

theorem otherReady_iff :
    sched.otherReady = true ↔ ∃ i, i ≠ sched.current ∧ sched.isReady i = true := by
  simp only [CpuScheduler.otherReady, List.any_eq_true, List.mem_range, Bool.and_eq_true,
    decide_eq_true_eq]
  constructor
  · rintro ⟨i, -, hi⟩
    exact ⟨i, hi⟩
  · rintro ⟨i, hne, hready⟩
    obtain ⟨task, hget, -⟩ := isReady_iff.mp hready
    exact ⟨i, (List.getElem?_eq_some_iff.mp hget).1, hne, hready⟩

theorem mem_victims {d : Fin n} : d ∈ victims c ↔ d ≠ c := by
  have hd := d.isLt
  simp only [victims, List.mem_map, List.mem_range, Fin.ext_iff, ne_eq]
  constructor
  · rintro ⟨offset, hlt, heq⟩ hsame
    rcases Nat.lt_or_ge (c.val + (offset + 1)) n with hsmall | hlarge
    · rw [Nat.mod_eq_of_lt hsmall] at heq
      omega
    · rw [Nat.mod_eq_sub_mod hlarge, Nat.mod_eq_of_lt (by omega)] at heq
      omega
  · intro hne
    rcases Nat.lt_or_ge c.val d.val with hlt | hge
    · exact ⟨d - c - 1, by omega, by rw [Nat.mod_eq_of_lt (by omega)]; omega⟩
    · refine ⟨d + n - c - 1, by omega, ?_⟩
      rw [show c.val + (d + n - c - 1 + 1) = d + n by omega, Nat.add_mod_right, Nat.mod_eq_of_lt hd]

theorem yieldNow_of_dead (hnodup : sched.keys.Nodup)
    (hget : sched.tasks[sched.current]? = some task) (hdead : task.state = .dead) :
    (∃ switch, sched.yieldNow.1 = some switch ∧ switch.nextKey ≠ task.key) ↔
      sched.otherReady = true := by
  rw [otherReady_iff]
  constructor
  · rintro ⟨switch, hswitch, -⟩
    rcases yieldNow_cases sched with hstay | ⟨next, other, hgoes, -⟩
    · rw [hstay] at hswitch
      cases hswitch
    · exact ⟨next, hgoes.other, isReady_iff.mpr ⟨other, hgoes.get, hgoes.ready⟩⟩
  · rintro ⟨i, hne, hready⟩
    obtain ⟨i, -, hpick, hnext, -⟩ := pickNext_of_ready hready
    generalize (sched.current + (i + 1)) % sched.tasks.length = next at hpick hnext
    obtain ⟨other, hother, hstate⟩ := isReady_iff.mp hnext
    have hleaves : next ≠ sched.current := by
      rintro rfl
      rw [hget] at hother
      cases hother
      rw [hdead] at hstate
      cases hstate
    have htwo : ¬ sched.tasks.length < 2 := by
      have hlt := (List.getElem?_eq_some_iff.mp hget).1
      have hlt' := (List.getElem?_eq_some_iff.mp hother).1
      omega
    have hyield : sched.yieldNow = sched.switchTo next := by
      simp only [CpuScheduler.yieldNow, if_neg htwo, hpick, if_neg hleaves]
    rw [hyield, CpuScheduler.switchTo, hother]
    refine ⟨_, rfl, fun hkey => hleaves ?_⟩
    refine position_unique hnodup (k := task.key) ?_ ?_
    · rw [getElem?_keys, hother]
      exact congrArg some hkey
    · rw [getElem?_keys, hget]
      rfl

theorem stealFrom_cases {cpus : List (Fin n)} (hcpus : ∀ victim ∈ cpus, victim ≠ c) :
    (s.stealFrom c cpus = s ∧ ∀ victim ∈ cpus, (s.queues victim).stealTask.1 = none) ∨
      (∃ victim ∈ cpus, (s.queues victim).stealTask.1.isSome = true) ∧
        ∃ sections, s.stealFrom c cpus = s.after sections ∧ ∃ task, task.state = .ready ∧
          (s.stealFrom c cpus).queues c = (s.queues c).push task := by
  induction cpus with
  | nil => exact .inl ⟨rfl, nofun⟩
  | cons victim rest ih =>
    have hvictim : c ≠ victim := (hcpus victim (.head _)).symm
    rw [RunQueues.stealFrom]
    split
    · rename_i hsome
      refine .inr ⟨⟨victim, .head _, hsome⟩,
        [.stealTask c victim, .finishSteal s.inFlight.length], rfl, ?_⟩
      rcases step_stealTask_cases s c victim with
        hsame | ⟨idx, task, hget, -, hne, hready, hstep⟩
      · -- the task taken is in flight, so the state has changed
        rcases stealTask_cases (s.queues victim) with hnone | ⟨_, _, _, _, _, _, hsteal⟩
        · rw [hnone] at hsome
          cases hsome
        · have hflight := congrArg (fun s => s.inFlight.length) hsame
          simp [RunQueues.step, if_neg hvictim, RunQueues.stealTask, hsteal] at hflight
      · refine ⟨task.resetQuantum, hready, ?_⟩
        rw [hstep]
        simp only [RunQueues.step, RunQueues.finishSteal, List.getElem?_concat_length]
        exact (setQueue_queues_self c _).trans
          (congrArg (CpuScheduler.push · _) (setQueue_queues_ne hvictim _))
    · rename_i hnone
      have hnone' : (s.queues victim).stealTask.1 = none := by simpa using hnone
      rcases ih (fun v hv => hcpus v (.tail _ hv)) with
        ⟨hsame, hall⟩ | ⟨⟨v, hv, hsome⟩, hrest⟩
      · exact .inl ⟨hsame, List.forall_mem_cons.mpr ⟨hnone', hall⟩⟩
      · exact .inr ⟨⟨v, .tail _ hv, hsome⟩, hrest⟩

theorem exit_current (sched : CpuScheduler) : sched.exit.tasks[sched.exit.current]? =
    sched.tasks[sched.current]?.map (Task.setState .dead) :=
  (getElem?_modifyAt sched sched.current sched.current _).trans (if_pos rfl)

theorem otherReady_push {sched : CpuScheduler} (hbound : sched.current < sched.tasks.length)
    (hready : task.state = .ready) : (sched.push task).otherReady = true := by
  refine otherReady_iff.mpr ⟨sched.tasks.length, ?_, isReady_iff.mpr ⟨task, ?_, hready⟩⟩
  · rw [current_push]
    omega
  · rw [tasks_push, List.getElem?_concat_length]

theorem yieldCall_of_dead (hs : Conserved s)
    (hget : (s.queues c).tasks[(s.queues c).current]? = some task) (hdead : task.state = .dead) :
    (∃ switch, s.yieldCall c = some switch ∧ switch.nextKey ≠ task.key) ↔
      (s.queues c).otherReady = true ∨ 1 < (s.queues c).tasks.length ∧
        ∃ victim, victim ≠ c ∧ (s.queues victim).stealTask.1.isSome = true := by
  have hstays := yieldNow_of_dead (hs.distinct.queue_nodup c) hget hdead
  cases hother : (s.queues c).otherReady with
  | true => simpa [RunQueues.yieldCall, hother] using hstays
  | false =>
    by_cases hlen : 1 < (s.queues c).tasks.length
    · have hcall : s.yieldCall c = ((s.stealFrom c (victims c)).queues c).yieldNow.1 := by
        simp [RunQueues.yieldCall, hother, hlen]
      rw [hcall]
      rcases stealFrom_cases (s := s) (c := c) fun _ => mem_victims.mp with
        ⟨hsame, hnone⟩ | ⟨⟨victim, hvictim, hsome⟩, sections, hafter, stolen, hready, hqueue⟩
      · rw [hsame, hstays, hother]
        constructor
        · nofun
        · rintro (hfalse | ⟨-, victim, hne, hsome⟩)
          · exact hfalse
          · rw [hnone victim (mem_victims.mpr hne)] at hsome
            exact hsome
      · refine iff_of_true ?_ (.inr ⟨hlen, victim, mem_victims.mp hvictim, hsome⟩)
        have hbound := (hs.settled c).bound
        have hnodup := (conserved_after hs sections).distinct.queue_nodup c
        rw [← hafter, hqueue] at hnodup
        rw [hqueue]
        refine (yieldNow_of_dead hnodup ?_ hdead).mpr (otherReady_push hbound hready)
        rw [tasks_push, current_push, List.getElem?_append_left hbound, hget]
    · have hcall : s.yieldCall c = (s.queues c).yieldNow.1 := by
        simp [RunQueues.yieldCall, hlen]
      rw [hcall, hstays, hother]
      simp [hlen]

end Exit

/-- A task has marked itself dead and calls `yield_now`.  However the sections of other
CPUs come between, the last section of the call leaves the task exactly if another one
of the queue is ready then; and if none come between, the call leaves it exactly if
another task of the queue is ready or one of another CPU can be stolen. -/
theorem exit_leaves_iff (n sentinelStack : Nat) (before between : List (LockedSection n))
    (c : Fin n) :
    let exited := ((RunQueues.boot n sentinelStack).after before).step (.exit c)
    (∀ task, ((exited.after between).queues c).tasks[((exited.after between).queues c).current]? =
        some task → task.state = .dead →
      ((∃ switch, ((exited.after between).queues c).yieldNow.1 = some switch ∧
          switch.nextKey ≠ task.key) ↔ ((exited.after between).queues c).otherReady = true)) ∧
    ((∃ switch, exited.yieldCall c = some switch ∧
        (exited.queues c).currentKey ≠ some switch.nextKey) ↔
      (exited.queues c).otherReady = true ∨ 1 < (exited.queues c).tasks.length ∧
        ∃ victim, victim ≠ c ∧ (exited.queues victim).stealTask.1.isSome = true) := by
  intro exited
  have hs : Conserved exited := (conserved_after (conserved_boot n sentinelStack) before).step _
  refine ⟨fun task hget hdead => ?_, ?_⟩
  · exact yieldNow_of_dead ((conserved_after hs between).distinct.queue_nodup c) hget hdead
  · have hdead : ∃ task, (exited.queues c).tasks[(exited.queues c).current]? = some task ∧
        task.state = .dead := by
      have hbound := ((conserved_after (conserved_boot n sentinelStack) before).settled c).bound
      rw [show exited.queues c = _ from setQueue_queues_self c _, exit_current,
        List.getElem?_eq_getElem hbound]
      exact ⟨_, rfl, rfl⟩
    obtain ⟨task, hget, hdead⟩ := hdead
    rw [← yieldCall_of_dead hs hget hdead]
    have hkey : (exited.queues c).currentKey = some task.key := by
      rw [CpuScheduler.currentKey, getElem?_keys, hget]
      rfl
    simp only [hkey, ne_eq, Option.some.injEq, eq_comm]

def exitWhileAsleep : List (LockedSection 1) :=
  [.spawnUser 0 0x30000 0x5000, .sleep 0 100, .yieldNow 0, .sleep 0 200, .yieldNow 0, .exit 0]

/-- Its `yield_now` returns to it. -/
theorem exit_returns :
    (((RunQueues.boot 1 0x20000).after exitWhileAsleep).queues 0).tasks[2]?.map
        (fun task => (task.key, task.state)) = some (2, .dead) ∧
      (((RunQueues.boot 1 0x20000).after exitWhileAsleep).queues 0).currentKey = some 2 ∧
      ((RunQueues.boot 1 0x20000).after exitWhileAsleep).yieldCall 0 = none := by
  decide

/-- `kill_task`, one queue after the other.  `others cpu` are the sections that other CPUs
execute just before the one in which `cpu` is searched, `last` those before the reaping. -/
def RunQueues.killFrom (tid : Nat) (others : Fin n → List (LockedSection n))
    (last : List (LockedSection n)) : List (Fin n) → RunQueues n → Bool × RunQueues n
  | [], s => (false, s)
  | cpu :: rest, s =>
    let s := s.after (others cpu)
    let marked := s.step (.kill cpu tid)
    if tid ∈ (s.queues cpu).ids then (true, (marked.after last).step (.reap cpu))
    else RunQueues.killFrom tid others last rest marked

def RunQueues.killTask (s : RunQueues n) (tid : Nat) (others : Fin n → List (LockedSection n))
    (last : List (LockedSection n)) : Bool × RunQueues n :=
  RunQueues.killFrom tid others last (List.finRange n) s

def LockedSection.Sparing : LockedSection n → Prop
  | .kill .. | .exit _ | .sleep .. => False
  | _ => True

def RunQueues.GivesOther (tid : Nat) (s : RunQueues n) (e : LockedSection n) : Prop :=
  e.spawns = true → s.nextTaskId ≠ tid

def RunQueues.Only (s : RunQueues n) (tid key : Nat) : Prop :=
  ∀ other, s.Holds tid other → other = key

section Kill

variable {tid key : Nat} {others : Fin n → List (LockedSection n)}
  {last sections : List (LockedSection n)}

theorem RunQueues.Only.after (h : s.Only tid key)
    (hfresh : Guarded RunQueues.step (RunQueues.GivesOther tid) s sections) :
    (s.after sections).Only tid key := by
  have hstep : ∀ (s : RunQueues n) e, s.Only tid key → s.GivesOther tid e →
      (s.step e).Only tid key := by
    intro s e h hother other hholds
    rcases holds_step hholds with hold | ⟨hspawns, hid, -⟩
    · exact h other hold
    · exact absurd hid.symm (hother hspawns)
  exact invariant_of_guarded hstep h hfresh

theorem sleepsAlive_of_sparing (hlast : ∀ e ∈ last, e.Sparing) :
    Guarded RunQueues.step RunQueues.SleepsAlive s last := by
  induction last generalizing s with
  | nil => trivial
  | cons e rest ih =>
    obtain ⟨hsparing, hrest⟩ := List.forall_mem_cons.mp hlast
    refine ⟨?_, ih hrest⟩
    cases e with
    | sleep c wakeTick => exact hsparing.elim
    | _ => trivial

theorem notAlive_of_found (hs : Conserved s) (honly : s.Only tid key)
    (hmem : tid ∈ (s.queues c).ids) (hlast : ∀ e ∈ last, e.Sparing) :
    (((s.step (.kill c tid)).after last).step (.reap c)).NotAlive key := by
  rcases markDead_cases (s.queues c) tid with ⟨-, habsent⟩ | ⟨idx, task, hget, hid, hmark⟩
  · obtain ⟨task, htask, hid⟩ := List.mem_map.mp hmem
    exact absurd hid (habsent task htask)
  · have hkey : task.key = key :=
      honly _ ⟨task, .inl ⟨c, List.mem_of_getElem? hget⟩, hid, rfl⟩
    have hdead : ((s.step (.kill c tid)).queues c).tasks[idx]? = some (task.setState .dead) := by
      rw [show (s.step (.kill c tid)).queues c = _ from setQueue_queues_self c _, hmark,
        getElem?_modifyAt, if_pos rfl, hget]
      rfl
    have hmarked : (s.step (.kill c tid)).Dead key :=
      ⟨_, .inl ⟨c, List.mem_of_getElem? hdead⟩, hkey, rfl⟩
    have hs' := hs.step (.kill c tid)
    have hsparing : ∀ e ∈ last ++ [.reap c], e.Sparing :=
      List.forall_mem_append.mpr ⟨hlast, List.forall_mem_singleton.mpr trivial⟩
    have hstays := (notAlive_of_dead hs' hmarked).after hs' (Dead.lt_nextKey hs' hmarked)
      (sleepsAlive_of_sparing hsparing)
    rwa [after_append] at hstays

theorem kill_of_not_mem (h : tid ∉ (s.queues c).ids) : s.step (.kill c tid) = s := by
  rcases markDead_cases (s.queues c) tid with ⟨hsame, -⟩ | ⟨idx, task, hget, hid, -⟩
  · simp [RunQueues.step, RunQueues.setQueue, hsame]
  · exact absurd (List.mem_map.mpr ⟨task, List.mem_of_getElem? hget, hid⟩) h

theorem killFrom_found_iff {cpus : List (Fin n)} :
    (s.killFrom tid others last cpus).1 = true ↔
      ∃ searched cpu rest, cpus = searched ++ cpu :: rest ∧
        tid ∈ ((s.after ((searched ++ [cpu]).flatMap others)).queues cpu).ids := by
  induction cpus generalizing s with
  | nil => simp [RunQueues.killFrom]
  | cons cpu rest ih =>
    rw [RunQueues.killFrom]
    split
    · rename_i hmem
      refine iff_of_true rfl ⟨[], cpu, rest, rfl, ?_⟩
      simpa using hmem
    · rename_i hmem
      rw [kill_of_not_mem hmem, ih]
      constructor
      · rintro ⟨searched, d, rest, rfl, hd⟩
        refine ⟨cpu :: searched, d, rest, rfl, ?_⟩
        rwa [List.cons_append, List.flatMap_cons, after_append]
      · rintro ⟨searched, d, rest', heq, hd⟩
        cases searched with
        | nil =>
          cases heq
          exact absurd (by simpa using hd) hmem
        | cons first searched =>
          cases heq
          refine ⟨searched, d, rest', rfl, ?_⟩
          rwa [List.cons_append, List.flatMap_cons, after_append] at hd

theorem killFrom_notAlive {cpus : List (Fin n)} (hs : Conserved s) (honly : s.Only tid key)
    (hlast : ∀ e ∈ last, e.Sparing)
    (hfresh : Guarded RunQueues.step (RunQueues.GivesOther tid) s (cpus.flatMap others))
    (hfound : (s.killFrom tid others last cpus).1 = true) :
    (s.killFrom tid others last cpus).2.NotAlive key := by
  induction cpus generalizing s with
  | nil => cases hfound
  | cons cpu rest ih =>
    rw [List.flatMap_cons, guarded_append] at hfresh
    have hs' := conserved_after hs (others cpu)
    have honly' := honly.after hfresh.1
    rw [RunQueues.killFrom] at hfound ⊢
    split at hfound
    · rename_i hmem
      rw [if_pos hmem]
      exact notAlive_of_found hs' honly' hmem hlast
    · rename_i hmem
      rw [if_neg hmem]
      rw [kill_of_not_mem hmem] at hfound ⊢
      exact ih hs' honly' hfresh.2 hfound

end Kill

/-- While other CPUs execute any sections, a `kill_task` call ends its task and says so
exactly if, at the search of some queue, the task is in it. -/
theorem kill_finds_iff (n sentinelStack : Nat) (before : List (LockedSection n)) (tid key : Nat)
    (others : Fin n → List (LockedSection n)) (last : List (LockedSection n))
    (honly : ((RunQueues.boot n sentinelStack).after before).Only tid key)
    (hfresh : Guarded RunQueues.step (RunQueues.GivesOther tid)
      ((RunQueues.boot n sentinelStack).after before) ((List.finRange n).flatMap others))
    (hlast : ∀ e ∈ last, e.Sparing) :
    let s := (RunQueues.boot n sentinelStack).after before
    ((s.killTask tid others last).1 = true ∧ (s.killTask tid others last).2.NotAlive key) ↔
      ∃ searched cpu rest, List.finRange n = searched ++ cpu :: rest ∧
        tid ∈ ((s.after ((searched ++ [cpu]).flatMap others)).queues cpu).ids :=
  (and_iff_left_of_imp (killFrom_notAlive (conserved_after (conserved_boot n sentinelStack) before)
    honly hlast hfresh)).trans killFrom_found_iff

def stealBefore (searched : Fin 2) (cpu : Fin 2) : List (LockedSection 2) :=
  if cpu = searched then [.stealTask 0 1, .finishSteal 0] else []

def twoOnCpuOne : List (LockedSection 2) :=
  [.spawn 1 0x30000, .spawn 1 0x40000]

theorem kill_finds_iff_moved :
    (((RunQueues.boot 2 0x20000).after twoOnCpuOne).killTask 2 (stealBefore 0) []).1 = true ∧
      (((RunQueues.boot 2 0x20000).after twoOnCpuOne).killTask 2 (stealBefore 0)
        []).2.NotAlive 3 := by
  have honly : ((RunQueues.boot 2 0x20000).after twoOnCpuOne).Only 2 3 := by
    rintro key ⟨task, ⟨c, hmem⟩ | ⟨thief, hmem⟩, hid, rfl⟩
    · have hall : ∀ c, ∀ task ∈ (((RunQueues.boot 2 0x20000).after twoOnCpuOne).queues c).tasks,
          task.id = 2 → task.key = 3 := by decide
      exact hall c task hmem hid
    · cases hmem
  have hfresh : Guarded RunQueues.step (RunQueues.GivesOther 2)
      ((RunQueues.boot 2 0x20000).after twoOnCpuOne)
      ((List.finRange 2).flatMap (stealBefore 0)) := ⟨by rintro ⟨⟩, by rintro ⟨⟩, trivial⟩
  exact (kill_finds_iff 2 0x20000 twoOnCpuOne 2 3 (stealBefore 0) [] honly hfresh (by simp)).mpr
    ⟨[], 0, [1], rfl, by decide⟩

/-- The task moves from a queue not yet searched to one that has been. -/
theorem kill_misses_task :
    (((RunQueues.boot 2 0x20000).after twoOnCpuOne).killTask 2 (stealBefore 1) []).1 = false ∧
      ((((RunQueues.boot 2 0x20000).after twoOnCpuOne).killTask 2 (stealBefore 1) []).2.queues
        0).tasks.map (fun task => (task.id, task.state)) =
          [(0, .running), (1, .ready), (2, .ready)] := by
  decide

end AuraOS.Scheduling
