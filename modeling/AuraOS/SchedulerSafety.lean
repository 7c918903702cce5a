import AuraOS.DistinctQueues
import AuraOS.GuardedRuns
import AuraOS.QueueSections

namespace AuraOS.Scheduling

open DistinctQueues GuardedRuns Function

variable {n : Nat} {f : Task → Task} {idx key rsp : Nat} {saved : Nat → Nat} {cpu : Cpu n}
  {switch : Switch} {sched : CpuScheduler} {task : Task} {slot : Slot}

def System.Has (s : System n) (task : Task) : Prop :=
  (∃ c, task ∈ (s.cpus c).sched.tasks) ∨ ∃ c, (c, task) ∈ s.stolen

/-- The context a switch is about to save goes into the task being suspended,
the next task is resumed where it was suspended, no task runs on two CPUs, and
no stack or page tables in use belong to a dropped task. -/
structure ContextSafe (s : System n) : Prop where
  save : ∀ c switch, (s.cpus c).switch = some switch →
    ∃ task, (s.cpus (s.cpus c).queue).sched.taskAt switch.oldRsp = some task ∧
      task.key = (s.cpus c).running
  resume : ∀ c switch, (s.cpus c).switch = some switch → switch.newRsp = s.saved switch.nextKey
  exclusive : ∀ c d, (s.cpus c).running = (s.cpus d).running → c = d
  in_use : ∀ c key, key = (s.cpus c).running ∨ (s.cpus c).space = some key →
    ∃ task, s.Has task ∧ task.key = key

/-- A CPU switches tasks in its own queue, and no other CPU moves or removes the task
whose context it is about to save.  Only stealing, reaping and a push that outgrows the
vector do so. -/
def System.Undisturbed (s : System n) : Event n → Prop
  | .yieldNow p c => s.Free p → p ≠ c → (s.cpus c).sched.yieldNow.1 = none
  | .steal p c victim => s.Free p → c ≠ victim → ∀ switch idx,
      (s.cpus victim).switch = some switch → (s.cpus victim).sched.stealIndex = some idx →
        switch.oldRsp.index < idx
  | .reap c target => s.Free c → ∀ switch, (s.cpus target).switch = some switch →
      ∀ idx ≤ switch.oldRsp.index, idx ≠ (s.cpus target).sched.current →
        ∀ task, (s.cpus target).sched.tasks[idx]? = some task → task.state ≠ .dead
  | .receive p entry => s.Free p → ∀ c task, s.stolen[entry]? = some (c, task) →
      (s.cpus c).switch ≠ none → (s.cpus c).sched.tasks.length < (s.cpus c).sched.capacity
  | .spawn c target _ => s.Free c → (s.cpus target).switch ≠ none →
      (s.cpus target).sched.tasks.length < (s.cpus target).sched.capacity
  | .spawnUser c target _ _ => s.Free c → (s.cpus target).switch ≠ none →
      (s.cpus target).sched.tasks.length < (s.cpus target).sched.capacity
  | _ => True

structure Core where
  key : Nat
  rsp : Nat
  isUser : Bool
  cr3 : Option Nat

def Task.core (task : Task) : Core :=
  ⟨task.key, task.rsp, task.isUser, task.cr3⟩

def CpuScheduler.cores (sched : CpuScheduler) : List Core :=
  sched.tasks.map Task.core

def CpuScheduler.keys (sched : CpuScheduler) : List Nat :=
  sched.cores.map Core.key

section Cores

variable {sched : CpuScheduler}

@[simp] theorem core_setState (state : TaskState) (task : Task) :
    (task.setState state).core = task.core := rfl

@[simp] theorem core_preempted (task : Task) : task.preempted.core = task.core := by
  simp only [Task.preempted]
  split <;> rfl

@[simp] theorem core_resetQuantum (task : Task) : task.resetQuantum.core = task.core := rfl

@[simp] theorem core_countTick (task : Task) : task.countTick.core = task.core := by
  simp only [Task.countTick]
  split <;> rfl

@[simp] theorem core_wake (now : Nat) (task : Task) : (task.wake now).core = task.core := by
  simp only [Task.wake]
  split
  · split <;> rfl
  · rfl

theorem cores_modifyAt (hf : ∀ task, (f task).core = task.core) (idx : Nat) :
    (sched.modifyAt idx f).cores = sched.cores := by
  refine List.ext_getElem? fun i => ?_
  simp only [CpuScheduler.cores, CpuScheduler.modifyAt, List.getElem?_map, List.getElem?_modify]
  cases sched.tasks[i]? with
  | none => rfl
  | some task =>
    by_cases hi : idx = i
    · simp [hi, hf]
    · simp [hi]

theorem cores_map (hf : ∀ task, (f task).core = task.core) :
    CpuScheduler.cores { sched with tasks := sched.tasks.map f } = sched.cores := by
  simp only [CpuScheduler.cores, List.map_map]
  exact List.map_congr_left fun task _ => hf task

@[simp] theorem cores_removeAt (idx : Nat) :
    (sched.removeAt idx).cores = sched.cores.eraseIdx idx := by
  simp only [CpuScheduler.cores, CpuScheduler.removeAt, List.eraseIdx_eq_take_drop_succ,
    List.map_append, List.map_take, List.map_drop]

@[simp] theorem cores_push (task : Task) :
    (sched.push task).cores = sched.cores ++ [task.core] := by
  simp only [CpuScheduler.cores, CpuScheduler.push]
  split <;> simp

@[simp] theorem keys_removeAt (idx : Nat) :
    (sched.removeAt idx).keys = sched.keys.eraseIdx idx := by
  simp only [CpuScheduler.keys, cores_removeAt, List.eraseIdx_eq_take_drop_succ,
    List.map_append, List.map_take, List.map_drop]

@[simp] theorem keys_push (task : Task) : (sched.push task).keys = sched.keys ++ [task.key] := by
  simp [CpuScheduler.keys, Task.core]

theorem keys_removeAt_current (h : idx ≠ sched.current) :
    (sched.removeAt idx).keys[(sched.removeAt idx).current]? = sched.keys[sched.current]? := by
  have hcurrent : (sched.removeAt idx).current =
      if idx < sched.current then sched.current - 1 else sched.current := rfl
  rw [hcurrent, keys_removeAt, List.getElem?_eraseIdx]
  by_cases hlt : idx < sched.current
  · have hsucc : sched.current - 1 + 1 = sched.current := by omega
    simp only [if_pos hlt]
    rw [if_neg (by omega), hsucc]
  · simp only [if_neg hlt]
    rw [if_pos (by omega)]

theorem getElem?_keys (idx : Nat) : sched.keys[idx]? = sched.tasks[idx]?.map Task.key := by
  simp only [CpuScheduler.keys, CpuScheduler.cores, List.getElem?_map, Option.map_map]
  rfl

end Cores

def Cpu.resident (cpu : Cpu n) : Nat :=
  match cpu.switch with
  | none => cpu.running
  | some switch => switch.nextKey

/-- What holds of CPU `c` on its own, given the stack pointers at the last suspensions. -/
structure CpuInvariant (saved : Nat → Nat) (c : Fin n) (cpu : Cpu n) : Prop where
  resident : cpu.sched.keys[cpu.sched.current]? = some cpu.resident
  buffer : ∀ switch, cpu.switch = some switch → switch.oldRsp.buffer = cpu.sched.buffer
  suspended : ∀ switch, cpu.switch = some switch →
    cpu.sched.keys[switch.oldRsp.index]? = some cpu.running
  changes : ∀ switch, cpu.switch = some switch → switch.nextKey ≠ cpu.running
  newRsp : ∀ switch, cpu.switch = some switch → switch.newRsp = saved switch.nextKey
  user : ∀ switch, cpu.switch = some switch → switch.isUser → switch.cr3.isSome
  space : ∀ key, cpu.space = some key → key = if cpu.loaded then cpu.resident else cpu.running
  own : cpu.queue = c

def System.pool (s : System n) : List Core :=
  s.stolen.map fun entry => entry.2.core

def System.HasCore (s : System n) (core : Core) : Prop :=
  (∃ c, core ∈ (s.cpus c).sched.cores) ∨ core ∈ s.pool

structure Invariant (s : System n) : Prop where
  cpu : ∀ c, CpuInvariant s.saved c (s.cpus c)
  distinct : Distinct (fun c => (s.cpus c).sched.keys) (s.pool.map Core.key)
  rsp : ∀ core, s.HasCore core → (∀ c, (s.cpus c).running ≠ core.key) → core.rsp = s.saved core.key
  user : ∀ core, s.HasCore core → core.isUser → core.cr3.isSome
  fresh : ∀ core, s.HasCore core → core.key < s.nextKey
  kernel : s.kernelCr3 ≠ 0

variable {c : Fin n}

theorem CpuInvariant.running_mem (h : CpuInvariant saved c cpu) :
    cpu.running ∈ cpu.sched.keys := by
  cases hswitch : cpu.switch with
  | none =>
    have hresident := h.resident
    simp only [Cpu.resident, hswitch] at hresident
    exact List.mem_of_getElem? hresident
  | some switch => exact List.mem_of_getElem? (h.suspended switch hswitch)

theorem CpuInvariant.resident_mem (h : CpuInvariant saved c cpu) :
    cpu.resident ∈ cpu.sched.keys :=
  List.mem_of_getElem? h.resident

theorem CpuInvariant.nextKey_mem (h : CpuInvariant saved c cpu)
    (hswitch : cpu.switch = some switch) : switch.nextKey ∈ cpu.sched.keys := by
  have hresident := h.resident_mem
  simpa only [Cpu.resident, hswitch] using hresident

theorem Invariant.running_injective {s : System n} (h : Invariant s) {d : Fin n}
    (heq : (s.cpus c).running = (s.cpus d).running) : c = d :=
  h.distinct.queue_unique c d _ (h.cpu c).running_mem (heq ▸ (h.cpu d).running_mem)

theorem exists_has_of_mem_keys {s : System n} (h : key ∈ (s.cpus c).sched.keys) :
    ∃ task, s.Has task ∧ task.key = key := by
  simp only [CpuScheduler.keys, CpuScheduler.cores, List.mem_map] at h
  obtain ⟨core, ⟨task, hmem, rfl⟩, rfl⟩ := h
  exact ⟨task, .inl ⟨c, hmem⟩, rfl⟩

theorem Invariant.contextSafe {s : System n} (h : Invariant s) : ContextSafe s where
  save := by
    intro c switch hswitch
    have hkey := (h.cpu c).suspended switch hswitch
    rw [getElem?_keys, Option.map_eq_some_iff] at hkey
    obtain ⟨task, hget, hkey⟩ := hkey
    refine ⟨task, ?_, hkey⟩
    rw [(h.cpu c).own, CpuScheduler.taskAt, if_pos ((h.cpu c).buffer switch hswitch), hget]
  resume := fun c => (h.cpu c).newRsp
  exclusive := fun c d => h.running_injective
  in_use := by
    intro c key huse
    refine exists_has_of_mem_keys (c := c) ?_
    rcases huse with rfl | hspace
    · exact (h.cpu c).running_mem
    · rw [(h.cpu c).space key hspace]
      split
      · exact (h.cpu c).resident_mem
      · exact (h.cpu c).running_mem

section Primitives

variable {s : System n}

@[simp] theorem setCpu_cpus_self (c : Fin n) (cpu : Cpu n) : (s.setCpu c cpu).cpus c = cpu :=
  update_self ..

theorem setCpu_cpus_ne {c d : Fin n} (h : d ≠ c) (cpu : Cpu n) :
    (s.setCpu c cpu).cpus d = s.cpus d :=
  update_of_ne h ..

@[simp] theorem setCpu_setCpu (c : Fin n) (cpu cpu' : Cpu n) :
    (s.setCpu c cpu).setCpu c cpu' = s.setCpu c cpu' := by
  simp only [System.setCpu, update_idem]

theorem setCpu_keys (c : Fin n) (cpu : Cpu n) :
    (fun d => ((s.setCpu c cpu).cpus d).sched.keys) =
      update (fun d => (s.cpus d).sched.keys) c cpu.sched.keys :=
  comp_update (fun cpu : Cpu n => cpu.sched.keys) s.cpus c cpu

theorem setCpu_running {c : Fin n} (h : cpu.running = (s.cpus c).running) (d : Fin n) :
    ((s.setCpu c cpu).cpus d).running = (s.cpus d).running :=
  (forall_update_iff s.cpus fun d cpu => cpu.running = (s.cpus d).running).mpr ⟨h, fun _ _ => rfl⟩ d

theorem setSched_running (c : Fin n) (sched : CpuScheduler) (d : Fin n) :
    ((s.setSched c sched).cpus d).running = (s.cpus d).running := by
  have hsame : ({ s.cpus c with sched := sched } : Cpu n).running = (s.cpus c).running := rfl
  exact setCpu_running hsame d

theorem setCpu_hasCore {c : Fin n} {core : Core} (h : (s.setCpu c cpu).HasCore core) :
    core ∈ cpu.sched.cores ∨ s.HasCore core := by
  rcases h with hqueue | hpool
  · rcases (exists_update_iff s.cpus fun _ cpu => core ∈ cpu.sched.cores).mp hqueue with
      hnew | ⟨d, -, hd⟩
    · exact .inl hnew
    · exact .inr (.inl ⟨d, hd⟩)
  · exact .inr (.inr hpool)

variable (h : Invariant s)
include h

theorem setCpu_cpuInvariant (hcpu : CpuInvariant s.saved c cpu) (d : Fin n) :
    CpuInvariant s.saved d ((s.setCpu c cpu).cpus d) :=
  (forall_update_iff s.cpus (CpuInvariant s.saved)).mpr ⟨hcpu, fun d _ => h.cpu d⟩ d

omit h in
theorem Invariant.of_cores (hcpu : ∀ c, CpuInvariant s.saved c (s.cpus c))
    (hdistinct : Distinct (fun c => (s.cpus c).sched.keys) (s.pool.map Core.key))
    (hcore : ∀ core, s.HasCore core →
      ((∀ c, (s.cpus c).running ≠ core.key) → core.rsp = s.saved core.key) ∧
        (core.isUser → core.cr3.isSome) ∧ core.key < s.nextKey)
    (hkernel : s.kernelCr3 ≠ 0) : Invariant s :=
  ⟨hcpu, hdistinct, fun core hmem => (hcore core hmem).1, fun core hmem => (hcore core hmem).2.1,
    fun core hmem => (hcore core hmem).2.2, hkernel⟩

theorem Invariant.setCpu {c : Fin n} (hsub : cpu.sched.cores.Sublist (s.cpus c).sched.cores)
    (hrunning : cpu.running = (s.cpus c).running) (hcpu : CpuInvariant s.saved c cpu) :
    Invariant (s.setCpu c cpu) := by
  have hcore : ∀ core, (s.setCpu c cpu).HasCore core → s.HasCore core := by
    intro core hcore
    rcases setCpu_hasCore hcore with hmem | hold
    · exact .inl ⟨c, hsub.subset hmem⟩
    · exact hold
  refine ⟨setCpu_cpuInvariant h hcpu, ?_, fun core hmem hidle => h.rsp core (hcore core hmem) ?_,
    fun core hmem => h.user core (hcore core hmem),
    fun core hmem => h.fresh core (hcore core hmem), h.kernel⟩
  · rw [setCpu_keys]
    exact h.distinct.shrink c (hsub.map Core.key)
  · simpa only [setCpu_running hrunning] using hidle

theorem Invariant.relabel {c : Fin n} (hcores : sched.cores = (s.cpus c).sched.cores)
    (hcurrent : sched.current = (s.cpus c).sched.current)
    (hbuffer : sched.buffer = (s.cpus c).sched.buffer) : Invariant (s.setSched c sched) := by
  have hkeys : sched.keys = (s.cpus c).sched.keys := by
    rw [CpuScheduler.keys, hcores, CpuScheduler.keys]
  obtain ⟨hres, hbuf, hsus, hch, hrsp, huser, hspace, hown⟩ := h.cpu c
  refine h.setCpu (hcores ▸ List.Sublist.refl _) rfl
    ⟨?_, ?_, ?_, hch, hrsp, huser, hspace, hown⟩
  · rw [hkeys, hcurrent]
    exact hres
  · intro switch hswitch
    rw [hbuffer]
    exact hbuf switch hswitch
  · rw [hkeys]
    exact hsus

/-- A task that is nowhere joins a queue; the buffer may change only while the CPU
of the queue is not about to write into it. -/
theorem Invariant.push {c : Fin n} (task : Task) (hqueue : ∀ d, task.key ∉ (s.cpus d).sched.keys)
    (hpool : task.key ∉ s.pool.map Core.key) (hrsp : task.rsp = s.saved task.key)
    (huser : task.isUser → task.cr3.isSome) (hfresh : task.key < s.nextKey)
    (hbuffer : s.Free c ∨ (s.cpus c).sched.tasks.length < (s.cpus c).sched.capacity) :
    Invariant (s.setSched c ((s.cpus c).sched.push task)) := by
  have hcore : ∀ core, (s.setSched c ((s.cpus c).sched.push task)).HasCore core →
      core = task.core ∨ s.HasCore core := by
    intro core hcore
    rcases setCpu_hasCore hcore with hmem | hold
    · rw [cores_push, List.mem_append, List.mem_singleton] at hmem
      exact hmem.symm.imp_right fun hmem => .inl ⟨c, hmem⟩
    · exact .inr hold
  have hkept : ∀ idx key : Nat, (s.cpus c).sched.keys[idx]? = some key →
      ((s.cpus c).sched.push task).keys[idx]? = some key := by
    intro idx key hget
    rw [keys_push, List.getElem?_append_left (List.getElem?_eq_some_iff.mp hget).1]
    exact hget
  obtain ⟨hres, hbuf, hsus, hch, hnew, hsw, hspace, hown⟩ := h.cpu c
  refine .of_cores (setCpu_cpuInvariant h ⟨?_, ?_, ?_, hch, hnew, hsw, hspace, hown⟩) ?_ ?_
    h.kernel
  · exact current_push (s.cpus c).sched task ▸ hkept _ _ hres
  · intro switch hswitch
    rcases hbuffer with hfree | hlt
    · exact absurd (hfree.symm.trans hswitch) nofun
    · simp only [CpuScheduler.push, if_pos hlt]
      exact hbuf switch hswitch
  · exact fun switch hswitch => hkept _ _ (hsus switch hswitch)
  · rw [System.setSched, setCpu_keys]
    simp only [keys_push]
    exact h.distinct.push c hqueue hpool
  · intro core hmem
    rcases hcore core hmem with rfl | hold
    · exact ⟨fun _ => hrsp, huser, hfresh⟩
    · refine ⟨fun hidle => h.rsp core hold ?_, h.user core hold, h.fresh core hold⟩
      simpa only [setSched_running] using hidle

theorem Invariant.pool_push {c : Fin n}
    (hqueue : ∀ d, task.key ∉ (s.cpus d).sched.keys) (hpool : task.key ∉ s.pool.map Core.key)
    (hrsp : task.rsp = s.saved task.key) (huser : task.isUser → task.cr3.isSome)
    (hfresh : task.key < s.nextKey) : Invariant { s with stolen := s.stolen ++ [(c, task)] } := by
  have hcore : ∀ core, System.HasCore { s with stolen := s.stolen ++ [(c, task)] } core →
      core = task.core ∨ s.HasCore core := by
    rintro core (hmem | hmem)
    · exact .inr (.inl hmem)
    · simp only [System.pool, List.map_append, List.mem_append, List.map_singleton,
        List.mem_singleton] at hmem
      exact hmem.symm.imp_right .inr
  refine .of_cores h.cpu ?_ (fun core hmem => ?_) h.kernel
  · have hdistinct := h.distinct.pool_push hqueue hpool
    simpa [System.pool, Task.core] using hdistinct
  · rcases hcore core hmem with rfl | hold
    · exact ⟨fun _ => hrsp, huser, hfresh⟩
    · exact ⟨h.rsp core hold, h.user core hold, h.fresh core hold⟩

theorem Invariant.pool_shrink {stolen : List (Fin n × Task)}
    (hsub : stolen.Sublist s.stolen) : Invariant { s with stolen := stolen } := by
  have hpool : (System.pool { s with stolen := stolen }).Sublist s.pool := hsub.map _
  have hcore : ∀ core, System.HasCore { s with stolen := stolen } core → s.HasCore core :=
    fun core hmem => hmem.imp_right fun hmem => hpool.subset hmem
  exact ⟨h.cpu, h.distinct.pool_shrink (hpool.map _), fun core hmem => h.rsp core (hcore core hmem),
    fun core hmem => h.user core (hcore core hmem),
    fun core hmem => h.fresh core (hcore core hmem), h.kernel⟩

omit h in
theorem CpuInvariant.removeAt (h : CpuInvariant saved c cpu) (hcurrent : idx ≠ cpu.sched.current)
    (hbehind : ∀ switch, cpu.switch = some switch → switch.oldRsp.index < idx) :
    CpuInvariant saved c { cpu with sched := cpu.sched.removeAt idx } := by
  obtain ⟨hres, hbuf, hsus, hch, hnew, hsw, hspace, hown⟩ := h
  refine ⟨?_, hbuf, ?_, hch, hnew, hsw, hspace, hown⟩
  · exact (keys_removeAt_current hcurrent).trans hres
  · intro switch hswitch
    rw [keys_removeAt, List.getElem?_eraseIdx, if_pos (hbehind switch hswitch)]
    exact hsus switch hswitch

omit h in
theorem stealIndex_spec (h : sched.stealIndex = some idx) :
    idx ≠ sched.current ∧ ∃ task, sched.tasks[idx]? = some task := by
  simp only [CpuScheduler.stealIndex] at h
  split at h
  · have hfound := List.find?_some h
    simp only [Bool.and_eq_true, decide_eq_true_eq, Option.any_eq_true] at hfound
    obtain ⟨⟨-, hcurrent⟩, task, hget, -⟩ := hfound
    exact ⟨hcurrent, task, hget⟩
  · cases h

omit h in
theorem mem_cores_of_getElem? (h : sched.tasks[idx]? = some task) : task.core ∈ sched.cores :=
  List.mem_map_of_mem (List.mem_of_getElem? h)

theorem steal_invariant {c victim : Fin n}
    (hbehind : ∀ switch idx, (s.cpus victim).switch = some switch →
      (s.cpus victim).sched.stealIndex = some idx → switch.oldRsp.index < idx) :
    Invariant (s.steal c victim) := by
  simp only [System.steal, CpuScheduler.stealTask]
  cases hidx : (s.cpus victim).sched.stealIndex with
  | none => exact h
  | some idx =>
    obtain ⟨hcurrent, task, hget⟩ := stealIndex_spec hidx
    have hcpu := (h.cpu victim).removeAt hcurrent fun switch hswitch =>
      hbehind switch idx hswitch hidx
    have hremoved : Invariant (s.setSched victim ((s.cpus victim).sched.removeAt idx)) :=
      h.setCpu (by rw [cores_removeAt]; exact List.eraseIdx_sublist _ _) rfl hcpu
    have hcore : s.HasCore task.core := .inl ⟨victim, mem_cores_of_getElem? hget⟩
    have hkey : (s.cpus victim).sched.keys[idx]? = some task.key := by
      rw [getElem?_keys, hget]
      rfl
    have hqueue : ∀ d, task.key ∉
        ((s.setSched victim ((s.cpus victim).sched.removeAt idx)).cpus d).sched.keys := by
      intro d
      by_cases hd : d = victim
      · subst hd
        rw [System.setSched, setCpu_cpus_self, keys_removeAt]
        exact not_mem_eraseIdx (h.distinct.queue_nodup d) hkey
      · rw [System.setSched, setCpu_cpus_ne hd]
        intro hmem
        exact hd (h.distinct.queue_unique d victim _ hmem (List.mem_of_getElem? hkey))
    have hidle : ∀ d, (s.cpus d).running ≠ task.key := by
      intro d hrunning
      have hmem := (hremoved.cpu d).running_mem
      rw [setSched_running, hrunning] at hmem
      exact hqueue d hmem
    simp only [hget]
    exact hremoved.pool_push hqueue
      (h.distinct.pool_disjoint victim _ (List.mem_of_getElem? hkey)) (h.rsp _ hcore hidle)
      (h.user _ hcore) (h.fresh _ hcore)

theorem receive_invariant {entry : Nat} (hroom : ∀ c task, s.stolen[entry]? = some (c, task) →
      s.Free c ∨ (s.cpus c).sched.tasks.length < (s.cpus c).sched.capacity) :
    Invariant (s.receive entry) := by
  simp only [System.receive]
  split
  · exact h
  rename_i c task hget
  have hpool : (s.pool.map Core.key)[entry]? = some task.key := by
    simp [System.pool, hget, Task.core]
  have hcore : s.HasCore task.core :=
    .inr (List.mem_map_of_mem (List.mem_of_getElem? hget))
  have hqueue : ∀ d, task.key ∉ (s.cpus d).sched.keys := fun d hmem =>
    h.distinct.pool_disjoint d _ hmem (List.mem_of_getElem? hpool)
  have hidle : ∀ d, (s.cpus d).running ≠ task.key := fun d hrunning =>
    hqueue d (hrunning ▸ (h.cpu d).running_mem)
  have hshrunk : Invariant { s with stolen := s.stolen.eraseIdx entry } :=
    h.pool_shrink (List.eraseIdx_sublist _ _)
  have hnot : task.key ∉
      (System.pool { s with stolen := s.stolen.eraseIdx entry }).map Core.key := by
    have herase := not_mem_eraseIdx h.distinct.pool_nodup hpool
    simpa only [System.pool, List.eraseIdx_eq_take_drop_succ, List.map_append,
      List.map_take, List.map_drop] using herase
  exact hshrunk.push task.resetQuantum hqueue hnot (h.rsp _ hcore hidle)
    (h.user _ hcore) (h.fresh _ hcore) (hroom c task hget)

omit h in
/-- The result of a scheduling section: the tasks stay where they are, and either
nothing else changes or a switch to another task begins. -/
structure Scheduled (sched : CpuScheduler) (result : Option Switch × CpuScheduler) : Prop where
  cores : result.2.cores = sched.cores
  buffer : result.2.buffer = sched.buffer
  stay : result.1 = none → result.2.current = sched.current
  change : ∀ switch, result.1 = some switch → ∃ task,
    result.2.cores[result.2.current]? = some task ∧ result.2.current ≠ sched.current ∧
      switch = ⟨⟨sched.buffer, sched.current⟩, task.rsp, task.isUser, switch.kstack, task.cr3,
        task.key⟩

omit h in
theorem scheduled_none {sched' : CpuScheduler} (hcores : sched'.cores = sched.cores)
    (hbuffer : sched'.buffer = sched.buffer) (hcurrent : sched'.current = sched.current) :
    Scheduled sched (none, sched') :=
  ⟨hcores, hbuffer, fun _ => hcurrent, nofun⟩

omit h in
theorem switchTo_scheduled (sched : CpuScheduler) {next : Nat} (h : next ≠ sched.current) :
    Scheduled sched (sched.switchTo next) := by
  simp only [CpuScheduler.switchTo]
  split
  · exact scheduled_none rfl rfl rfl
  rename_i task hget
  have hcores : CpuScheduler.cores { (sched.modifyAt sched.current Task.preempted).modifyAt next
      (Task.setState .running) with current := next } = sched.cores :=
    (cores_modifyAt (core_setState .running) next).trans
      (cores_modifyAt core_preempted sched.current)
  refine ⟨hcores, rfl, nofun, ?_⟩
  rintro switch ⟨⟩
  refine ⟨task.core, ?_, h, rfl⟩
  rw [hcores, CpuScheduler.cores, List.getElem?_map, hget]
  rfl

omit h in
theorem yieldNow_scheduled (sched : CpuScheduler) : Scheduled sched sched.yieldNow := by
  rcases yieldNow_cases sched with hstay | ⟨next, task, hgoes, hswitch⟩
  · rw [hstay]
    exact scheduled_none rfl rfl rfl
  · rw [hswitch]
    exact switchTo_scheduled sched hgoes.other

omit h in
theorem preemptSchedule_scheduled (sched : CpuScheduler) :
    Scheduled sched sched.preemptSchedule := by
  have hreset : (sched.modifyAt sched.current Task.resetQuantum).cores = sched.cores :=
    cores_modifyAt core_resetQuantum _
  rcases preemptSchedule_cases sched with hstay | hstay | ⟨next, task, hgoes, hswitch⟩
  · rw [hstay]
    exact scheduled_none rfl rfl rfl
  · rw [hstay]
    exact scheduled_none hreset rfl rfl
  · rw [hswitch]
    obtain ⟨hcores, hbuffer, hstay, hchange⟩ := switchTo_scheduled _ hgoes.other
    have hquantum : (((sched.modifyAt sched.current Task.resetQuantum).switchTo next).2.modifyAt
        next Task.resetQuantum).cores =
          ((sched.modifyAt sched.current Task.resetQuantum).switchTo next).2.cores :=
      cores_modifyAt core_resetQuantum _
    refine ⟨hquantum.trans (hcores.trans hreset), hbuffer, hstay, ?_⟩
    simp only [hquantum]
    exact hchange

theorem schedule_none_invariant {p : Fin n} {result : Option Switch × CpuScheduler}
    (hresult : Scheduled (s.cpus c).sched result) (hnone : result.1 = none) :
    Invariant (s.schedule p c result) := by
  simp only [System.schedule, hnone]
  exact h.relabel hresult.cores (hresult.stay hnone) hresult.buffer

theorem schedule_invariant (hfree : s.Free c) {result : Option Switch × CpuScheduler}
    (hresult : Scheduled (s.cpus c).sched result) : Invariant (s.schedule c c result) := by
  cases hswitch : result.1 with
  | none => exact schedule_none_invariant h hresult hswitch
  | some switch =>
    obtain ⟨hcores, hbuffer, -, hchange⟩ := hresult
    obtain ⟨task, hget, hne, hswitchEq⟩ := hchange switch hswitch
    have hkeys : result.2.keys = (s.cpus c).sched.keys := by
      rw [CpuScheduler.keys, hcores, CpuScheduler.keys]
    have hresident := (h.cpu c).resident
    have hspace := (h.cpu c).space
    simp only [Cpu.resident, show (s.cpus c).switch = none from hfree, ite_self]
      at hresident hspace
    have hkey : (s.cpus c).sched.keys[result.2.current]? = some task.key := by
      rw [CpuScheduler.keys, ← hcores, List.getElem?_map, hget]
      rfl
    have hcore : s.HasCore task :=
      .inl ⟨c, hcores ▸ List.mem_of_getElem? hget⟩
    have hdiffers : task.key ≠ (s.cpus c).running := by
      intro heq
      rw [heq] at hkey
      exact hne (position_unique (h.distinct.queue_nodup c) hkey hresident)
    have hidle : ∀ d, (s.cpus d).running ≠ task.key := by
      intro d heq
      have hd : d = c := h.distinct.queue_unique d c _ (h.cpu d).running_mem
        (heq ▸ List.mem_of_getElem? hkey)
      exact hdiffers (hd ▸ heq).symm
    simp only [System.schedule, hswitch, System.setSched, setCpu_setCpu, setCpu_cpus_self]
    refine h.setCpu (hcores ▸ List.Sublist.refl _) rfl ?_
    obtain ⟨oldRsp, newRsp, isUser, kstack, cr3, nextKey⟩ := switch
    obtain ⟨rfl, rfl, rfl, -, rfl, rfl⟩ := Switch.mk.inj hswitchEq
    refine ⟨?_, ?_, ?_, ?_, ?_, ?_, hspace, rfl⟩
    · rw [hkeys]
      exact hkey
    · rintro switch ⟨⟩
      exact hbuffer.symm
    · rintro switch ⟨⟩
      rw [hkeys]
      exact hresident
    · rintro switch ⟨⟩
      exact hdiffers
    · rintro switch ⟨⟩
      exact h.rsp task hcore hidle
    · rintro switch ⟨⟩
      exact h.user task hcore

theorem onContextSwitch_invariant (c : Fin n) : Invariant (s.onContextSwitch c) := by
  simp only [System.onContextSwitch]
  split
  · exact h
  rename_i switch hswitch
  obtain ⟨hres, hbuf, hsus, hch, hnew, huser, hspace, hown⟩ := h.cpu c
  refine h.setCpu (List.Sublist.refl _) rfl ⟨hres, hbuf, hsus, hch, hnew, huser, ?_, hown⟩
  intro key hkey
  simp only [Cpu.resident, hswitch, if_true]
  split at hkey
  · rename_i hisUser
    rw [if_pos (huser switch hswitch hisUser)] at hkey
    exact (Option.some.inj hkey).symm
  · rw [if_pos h.kernel] at hkey
    cases hkey

omit h in
theorem getElem?_cores_writeRsp (h : slot.buffer = sched.buffer) (rsp idx : Nat) :
    (sched.writeRsp slot rsp).cores[idx]? = sched.cores[idx]?.map fun core =>
      if slot.index = idx then { core with rsp := rsp } else core := by
  simp only [CpuScheduler.writeRsp, if_pos h, CpuScheduler.modifyAt, CpuScheduler.cores,
    List.getElem?_map, List.getElem?_modify]
  cases sched.tasks[idx]? with
  | none => rfl
  | some task =>
    by_cases hidx : slot.index = idx
    · simp [hidx, Task.core]
    · simp [hidx]

omit h in
@[simp] theorem keys_writeRsp (sched : CpuScheduler) (slot : Slot) (rsp : Nat) :
    (sched.writeRsp slot rsp).keys = sched.keys := by
  by_cases h : slot.buffer = sched.buffer
  · refine List.ext_getElem? fun idx => ?_
    simp only [CpuScheduler.keys, List.getElem?_map, getElem?_cores_writeRsp h, Option.map_map]
    refine Option.map_congr fun core _ => ?_
    simp only [comp_apply]
    split <;> rfl
  · simp only [CpuScheduler.writeRsp, if_neg h]

omit h in
theorem mem_cores_writeRsp (h : slot.buffer = sched.buffer)
    (hkey : sched.keys[slot.index]? = some key) (hnodup : sched.keys.Nodup) {core : Core}
    (hmem : core ∈ (sched.writeRsp slot rsp).cores) :
    (core.key ≠ key ∧ core ∈ sched.cores) ∨
      ∃ old ∈ sched.cores, core = { old with rsp := rsp } ∧ old.key = key := by
  obtain ⟨idx, hget⟩ := List.mem_iff_getElem?.mp hmem
  rw [getElem?_cores_writeRsp h, Option.map_eq_some_iff] at hget
  obtain ⟨old, hold, rfl⟩ := hget
  have holdKey : sched.keys[idx]? = some old.key := by
    rw [CpuScheduler.keys, List.getElem?_map, hold]
    rfl
  split
  · rename_i heq
    subst heq
    refine .inr ⟨old, List.mem_of_getElem? hold, rfl, ?_⟩
    exact Option.some.inj (holdKey.symm.trans hkey)
  · rename_i hne
    refine .inl ⟨fun heq => hne ?_, List.mem_of_getElem? hold⟩
    exact position_unique hnodup hkey (heq ▸ holdKey)

theorem saved_hasCore {c : Fin n} (hswitch : (s.cpus c).switch = some switch)
    (hcpu : cpu.sched = (s.cpus c).sched.writeRsp switch.oldRsp rsp) {core : Core}
    (hcore : (s.setCpu c cpu).HasCore core) :
    (core.key ≠ (s.cpus c).running ∧ s.HasCore core) ∨
      ∃ old, s.HasCore old ∧ core = { old with rsp := rsp } ∧ old.key = (s.cpus c).running := by
  have hrunning := (h.cpu c).running_mem
  rcases hcore with ⟨d, hmem⟩ | hmem
  · by_cases hd : d = c
    · subst hd
      rw [setCpu_cpus_self, hcpu] at hmem
      refine (mem_cores_writeRsp ((h.cpu d).buffer switch hswitch)
        ((h.cpu d).suspended switch hswitch) (h.distinct.queue_nodup d) hmem).imp ?_ ?_
      · rintro ⟨hne, hold⟩
        exact ⟨hne, .inl ⟨d, hold⟩⟩
      · rintro ⟨old, hold, heq, hkey⟩
        exact ⟨old, .inl ⟨d, hold⟩, heq, hkey⟩
    · rw [setCpu_cpus_ne hd] at hmem
      refine .inl ⟨fun heq => hd ?_, .inl ⟨d, hmem⟩⟩
      exact h.distinct.queue_unique d c _ (List.mem_map_of_mem hmem) (heq ▸ hrunning)
  · refine .inl ⟨fun heq => ?_, .inr hmem⟩
    exact h.distinct.pool_disjoint c _ hrunning (heq ▸ List.mem_map_of_mem hmem)

theorem switchContext_invariant (c : Fin n) (rsp : Nat) : Invariant (s.switchContext c rsp) := by
  simp only [System.switchContext]
  split
  · exact h
  rename_i switch hswitch
  split
  swap
  · exact h
  rename_i hloaded
  obtain ⟨hres, hbuf, hsus, hch, hnew, huser, hspace, hown⟩ := h.cpu c
  simp only [hown, System.setSched, setCpu_setCpu, setCpu_cpus_self]
  simp only [Cpu.resident, hswitch, hloaded, if_true] at hres hspace
  have hrunning := (h.cpu c).running_mem
  refine .of_cores ?_ ?_ ?_ h.kernel
  · intro d
    by_cases hd : d = c
    · subst hd
      simp only [setCpu_cpus_self]
      refine ⟨?_, nofun, nofun, nofun, nofun, nofun, ?_, rfl⟩
      · have hcurrent : ((s.cpus d).sched.writeRsp switch.oldRsp rsp).current =
            (s.cpus d).sched.current := by
          simp only [CpuScheduler.writeRsp]
          split <;> rfl
        simp only [keys_writeRsp, hcurrent]
        exact hres
      · simpa only [Cpu.resident, ite_self] using hspace
    · simp only [setCpu_cpus_ne hd]
      obtain ⟨hres', hbuf', hsus', hch', hnew', huser', hspace', hown'⟩ := h.cpu d
      refine ⟨hres', hbuf', hsus', hch', ?_, huser', hspace', hown'⟩
      intro switch' hswitch'
      rw [update_of_ne, hnew' switch' hswitch']
      intro heq
      exact hd (h.distinct.queue_unique d c _ ((h.cpu d).nextKey_mem hswitch') (heq ▸ hrunning))
  · refine Eq.mpr (congrArg₂ Distinct ?_ rfl) h.distinct
    rw [setCpu_keys, keys_writeRsp]
    exact update_eq_self c _
  · intro core hmem
    rcases saved_hasCore h hswitch rfl hmem with ⟨hne, hold⟩ | ⟨old, hold, rfl, hkey⟩
    · refine ⟨fun hidle => ?_, h.user core hold, h.fresh core hold⟩
      simp only [update_of_ne hne]
      refine h.rsp core hold fun d => ?_
      by_cases hd : d = c
      · exact hd ▸ hne.symm
      · have hd' := hidle d
        simpa only [setCpu_cpus_ne hd] using hd'
    · exact ⟨fun _ => by simp only [hkey, update_self], h.user old hold, h.fresh old hold⟩

omit h in
/-- Reaping keeps a CPU in order if it removes nothing up to the task being
suspended: everything dead there is behind that task. -/
theorem CpuInvariant.reapFrom (h : CpuInvariant saved c cpu) (remaining i : Nat)
    (hbehind : ∀ switch, cpu.switch = some switch → ∀ idx ≤ switch.oldRsp.index,
      idx ≠ cpu.sched.current → ∀ task, cpu.sched.tasks[idx]? = some task → task.state ≠ .dead) :
    CpuInvariant saved c { cpu with sched := CpuScheduler.reapFrom remaining i cpu.sched } := by
  refine (reapFrom_induction (P := fun sched => CpuInvariant saved c { cpu with sched := sched } ∧
    ∀ switch, cpu.switch = some switch → ∀ idx ≤ switch.oldRsp.index,
      idx ≠ sched.current → ∀ task, sched.tasks[idx]? = some task → task.state ≠ .dead)
    ?_ ⟨h, hbehind⟩ remaining i).1
  rintro sched i task hget hstate hcurrent ⟨hcpu, hbehind⟩
  have hafter : ∀ switch, cpu.switch = some switch → switch.oldRsp.index < i := by
    intro switch hswitch
    by_contra hle
    exact hbehind switch hswitch i (by omega) hcurrent task hget hstate
  refine ⟨hcpu.removeAt hcurrent hafter, ?_⟩
  intro switch hswitch idx hidx hne other hother
  have hlt : idx < i := Nat.lt_of_le_of_lt hidx (hafter switch hswitch)
  simp only [CpuScheduler.removeAt, List.getElem?_eraseIdx, if_pos hlt] at hother hne
  refine hbehind switch hswitch idx hidx ?_ other hother
  split at hne
  · omega
  · exact hne

omit h in
theorem reapFrom_sublist (remaining i : Nat) (sched : CpuScheduler) :
    (CpuScheduler.reapFrom remaining i sched).tasks.Sublist sched.tasks :=
  reapFrom_induction (P := fun reaped => reaped.tasks.Sublist sched.tasks)
    (fun _ _ _ _ _ _ h => (List.eraseIdx_sublist _ _).trans h) (List.Sublist.refl _) remaining i

theorem reap_invariant {target : Fin n} (hbehind : ∀ switch, (s.cpus target).switch = some switch →
      ∀ idx ≤ switch.oldRsp.index, idx ≠ (s.cpus target).sched.current →
        ∀ task, (s.cpus target).sched.tasks[idx]? = some task → task.state ≠ .dead) :
    Invariant (s.setSched target (s.cpus target).sched.reapDeadTasks) :=
  h.setCpu ((reapFrom_sublist _ _ _).map _) rfl ((h.cpu target).reapFrom _ _ hbehind)

theorem spawnTask_invariant {target : Fin n} (hkey : task.key = s.nextKey)
    (huser : task.isUser → task.cr3.isSome) (hbuffer : s.Free target ∨
      (s.cpus target).sched.tasks.length < (s.cpus target).sched.capacity) :
    Invariant (s.spawnTask target task) := by
  have hqueue : ∀ d key, key ∈ (s.cpus d).sched.keys → key ≠ task.key := by
    intro d key hmem
    obtain ⟨core, hcore, rfl⟩ := List.mem_map.mp hmem
    have hlt := h.fresh core (.inl ⟨d, hcore⟩)
    omega
  have hpool : task.key ∉ s.pool.map Core.key := by
    intro hmem
    obtain ⟨core, hcore, heq⟩ := List.mem_map.mp hmem
    have hlt := h.fresh core (.inr hcore)
    omega
  have hfresh : Invariant { s with
      nextTaskId := (s.nextTaskId + 1) % 2 ^ 64
      nextKey := s.nextKey + 1
      saved := update s.saved task.key task.rsp } := by
    refine ⟨fun d => ?_, h.distinct, ?_, h.user, fun core hcore => ?_, h.kernel⟩
    · obtain ⟨hres, hbuf, hsus, hch, hnew, hsw, hspace, hown⟩ := h.cpu d
      refine ⟨hres, hbuf, hsus, hch, ?_, hsw, hspace, hown⟩
      intro switch hswitch
      have hne := hqueue d _ ((h.cpu d).nextKey_mem hswitch)
      simp only [update_of_ne hne]
      exact hnew switch hswitch
    · intro core hcore hidle
      have hlt := h.fresh core hcore
      have hne : core.key ≠ task.key := by omega
      simp only [update_of_ne hne]
      exact h.rsp core hcore hidle
    · exact Nat.lt_succ_of_lt (h.fresh core hcore)
  exact hfresh.push task (fun d hmem => hqueue d _ hmem rfl) hpool (by simp) huser
    (by simp only; omega) hbuffer

omit h in
theorem room_of_switching {target : Fin n} (h : (s.cpus target).switch ≠ none →
      (s.cpus target).sched.tasks.length < (s.cpus target).sched.capacity) :
    s.Free target ∨ (s.cpus target).sched.tasks.length < (s.cpus target).sched.capacity :=
  (Decidable.em _).imp_right h

end Primitives

section Exactness

variable {s : System n} {sched : CpuScheduler} {slot : Slot} {key : Nat}

def Lost (sched : CpuScheduler) (slot : Slot) (key : Nat) : Prop :=
  ∀ idx, slot.index ≤ idx → sched.keys[idx]? ≠ some key

theorem Lost.removeAt (h : Lost sched slot key) (idx : Nat) :
    Lost (sched.removeAt idx) slot key := by
  intro j hj
  rw [keys_removeAt, List.getElem?_eraseIdx]
  split
  · exact h j hj
  · exact h (j + 1) (by omega)

theorem lost_of_removeAt (hnodup : sched.keys.Nodup) (hkey : sched.keys[slot.index]? = some key)
    (hle : idx ≤ slot.index) : Lost (sched.removeAt idx) slot key := by
  intro j hj hget
  rw [keys_removeAt, List.getElem?_eraseIdx, if_neg (by omega)] at hget
  have heq := position_unique hnodup hkey hget
  omega

theorem Lost.reapFrom (h : Lost sched slot key) (remaining i : Nat) :
    Lost (CpuScheduler.reapFrom remaining i sched) slot key :=
  reapFrom_induction (P := fun sched => Lost sched slot key)
    (fun _ idx _ _ _ _ h => h.removeAt idx) h remaining i

theorem lost_of_reapFrom (hnodup : sched.keys.Nodup) (hkey : sched.keys[slot.index]? = some key)
    (hget : sched.tasks[idx]? = some task) (hdead : task.state = .dead)
    (hcurrent : idx ≠ sched.current) (hle : idx ≤ slot.index) (remaining i : Nat)
    (hi : i ≤ idx ∧ idx < i + remaining) :
    Lost (CpuScheduler.reapFrom remaining i sched) slot key := by
  induction remaining generalizing i with
  | zero => omega
  | succ remaining ih =>
    simp only [CpuScheduler.reapFrom]
    split
    · exact ih (i + 1) (by omega)
    split
    · exact (lost_of_removeAt hnodup hkey (by omega)).reapFrom remaining i
    · rename_i hnot
      have hne : i ≠ idx := by
        rintro rfl
        simp [hget, hdead] at hnot
      exact ih (i + 1) (by omega)

theorem not_lost_of_taskAt (hat : sched.taskAt slot = some task) (hkey : task.key = key) :
    ¬ Lost sched slot key := by
  intro hlost
  refine hlost slot.index le_rfl ?_
  simp only [CpuScheduler.taskAt] at hat
  split at hat
  · rw [getElem?_keys, hat, ← hkey]
    rfl
  · cases hat

theorem not_lost_of_contextSafe (h : ContextSafe s) (hcpu : s.cpus c = cpu)
    (hown : cpu.queue = c) (hswitch : cpu.switch = some switch) :
    ¬ Lost cpu.sched switch.oldRsp cpu.running := by
  subst hcpu
  obtain ⟨task, hat, hkey⟩ := h.save c switch hswitch
  rw [hown] at hat
  exact not_lost_of_taskAt hat hkey

/-- The pointer of a switch in another CPU's queue names a task of that queue, and the
task being suspended is in the queue of its own CPU. -/
theorem undisturbed_of_yieldNow (h : Invariant s) {p : Fin n}
    (hsafe : ContextSafe (s.step (.yieldNow p c))) : s.Undisturbed (.yieldNow p c) := by
  intro hfree hpc
  by_contra hsome
  obtain ⟨switch, hswitch⟩ := Option.ne_none_iff_exists'.mp hsome
  simp only [System.step, if_pos hfree, System.schedule, hswitch] at hsafe
  obtain ⟨task, hat, hkey⟩ := hsafe.save p switch (by rw [setCpu_cpus_self])
  simp only [setCpu_cpus_self] at hat hkey
  rw [setCpu_cpus_ne (Ne.symm hpc), System.setSched, setCpu_cpus_self] at hat
  rw [System.setSched, setCpu_cpus_ne hpc] at hkey
  refine hpc (h.distinct.queue_unique p c _ (h.cpu p).running_mem ?_)
  rw [CpuScheduler.keys, ← (yieldNow_scheduled (s.cpus c).sched).cores, ← CpuScheduler.keys,
    ← hkey]
  by_contra habsent
  refine not_lost_of_taskAt hat rfl fun idx _ hget => habsent (List.mem_of_getElem? hget)

theorem undisturbed_of_steal (h : Invariant s) {p victim : Fin n}
    (hsafe : ContextSafe (s.step (.steal p c victim))) : s.Undisturbed (.steal p c victim) := by
  intro hfree hne switch idx hswitch hidx
  by_contra hle
  obtain ⟨-, task, hget⟩ := stealIndex_spec hidx
  simp only [System.step, if_pos (And.intro hfree hne), System.steal, CpuScheduler.stealTask, hidx,
    hget] at hsafe
  refine not_lost_of_contextSafe hsafe (setCpu_cpus_self (s := s) victim _) (h.cpu victim).own
    hswitch ?_
  exact lost_of_removeAt (h.distinct.queue_nodup victim)
    ((h.cpu victim).suspended switch hswitch) (by omega)

theorem undisturbed_of_reap (h : Invariant s) {target : Fin n}
    (hsafe : ContextSafe (s.step (.reap c target))) : s.Undisturbed (.reap c target) := by
  intro hfree switch hswitch idx hle hcurrent task hget hdead
  simp only [System.step, if_pos hfree] at hsafe
  refine not_lost_of_contextSafe hsafe (setCpu_cpus_self target _) (h.cpu target).own hswitch ?_
  have hlt := (List.getElem?_eq_some_iff.mp hget).1
  exact lost_of_reapFrom (h.distinct.queue_nodup target) ((h.cpu target).suspended switch hswitch)
    hget hdead hcurrent hle _ 0 (by omega)

theorem length_lt_of_push (h : Invariant s) {s' : System n} (hsafe : ContextSafe s')
    (hcpu : s'.cpus c = { s.cpus c with sched := (s.cpus c).sched.push task })
    (hswitch : (s.cpus c).switch ≠ none) :
    (s.cpus c).sched.tasks.length < (s.cpus c).sched.capacity := by
  by_contra hfull
  obtain ⟨switch, hswitch⟩ := Option.ne_none_iff_exists'.mp hswitch
  obtain ⟨other, hat, -⟩ := hsafe.save c switch (by rw [hcpu]; exact hswitch)
  have hown : (s'.cpus c).queue = c := by
    rw [hcpu]
    exact (h.cpu c).own
  have hbuffer := (h.cpu c).buffer switch hswitch
  rw [hown, hcpu] at hat
  simp only [CpuScheduler.taskAt, CpuScheduler.push, if_neg hfull] at hat
  rw [if_neg (by omega)] at hat
  cases hat

end Exactness

theorem invariant_ite {s s' : System n} {p : Prop} [Decidable p] (h : Invariant s)
    (h' : p → Invariant s') : Invariant (if p then s' else s) := by
  split
  · exact h' ‹p›
  · exact h

theorem step_invariant {s : System n} (h : Invariant s) {event : Event n}
    (hguard : s.Undisturbed event) : Invariant (s.step event) := by
  cases event with
  | yieldNow p c =>
    refine invariant_ite h fun hfree => ?_
    by_cases hpc : p = c
    · subst hpc
      exact schedule_invariant h hfree (yieldNow_scheduled _)
    · exact schedule_none_invariant h (yieldNow_scheduled _) (hguard hfree hpc)
  | preemptSchedule c =>
    exact invariant_ite h fun hfree => schedule_invariant h hfree (preemptSchedule_scheduled _)
  | onContextSwitch c => exact onContextSwitch_invariant h c
  | switchContext c rsp => exact switchContext_invariant h c rsp
  | steal p c victim =>
    exact invariant_ite h fun hfree => steal_invariant h (hguard hfree.1 hfree.2)
  | receive p entry =>
    exact invariant_ite h fun hfree =>
      receive_invariant h fun c task hget => room_of_switching (hguard hfree c task hget)
  | kill c target tid =>
    refine invariant_ite h fun _ => ?_
    rw [CpuScheduler.markDead]
    split
    · exact h.relabel rfl rfl rfl
    · exact h.relabel (cores_modifyAt (core_setState .dead) _) rfl rfl
  | reap c target => exact invariant_ite h fun hfree => reap_invariant h (hguard hfree)
  | spawn c target stackBase =>
    exact invariant_ite h fun hfree =>
      spawnTask_invariant h rfl (by rintro ⟨⟩) (room_of_switching (hguard hfree))
  | spawnUser c target stackBase cr3 =>
    exact invariant_ite h fun hfree =>
      spawnTask_invariant h rfl (fun _ => rfl) (room_of_switching (hguard hfree))
  | timerTick c now =>
    exact invariant_ite h fun _ =>
      h.relabel ((cores_map (core_wake now)).trans (cores_modifyAt core_countTick _)) rfl rfl
  | wake c target now =>
    exact invariant_ite h fun _ => h.relabel (cores_map (core_wake now)) rfl rfl
  | sleep p c target =>
    exact invariant_ite h fun _ => h.relabel (cores_modifyAt (core_setState _) _) rfl rfl

theorem undisturbed_of_contextSafe {s : System n} (h : Invariant s) {event : Event n}
    (hsafe : ContextSafe (s.step event)) : s.Undisturbed event := by
  cases event with
  | yieldNow p c => exact undisturbed_of_yieldNow h hsafe
  | steal p c victim => exact undisturbed_of_steal h hsafe
  | receive p entry =>
    intro hfree c task hget
    simp only [System.step, if_pos hfree, System.receive, hget] at hsafe
    exact length_lt_of_push h hsafe (setCpu_cpus_self (s := s) c _)
  | reap c target => exact undisturbed_of_reap h hsafe
  | spawn c target stackBase =>
    intro hfree
    simp only [System.step, if_pos hfree] at hsafe
    exact length_lt_of_push h hsafe (setCpu_cpus_self (s := s) target _)
  | spawnUser c target stackBase cr3 =>
    intro hfree
    simp only [System.step, if_pos hfree] at hsafe
    exact length_lt_of_push h hsafe (setCpu_cpus_self (s := s) target _)
  | _ => trivial

section Boot

variable {sentinelStack kernelCr3 : Nat}

theorem boot_cores (c : Fin n) :
    ((System.boot n sentinelStack kernelCr3).cpus c).sched.cores =
      if c.val = 0 then [⟨c, 0, false, none⟩, ⟨n, initialRsp sentinelStack, false, none⟩]
      else [⟨c, 0, false, none⟩] := by
  simp only [System.boot, CpuScheduler.cores]
  split <;> rfl

theorem boot_hasCore {core : Core} (h : (System.boot n sentinelStack kernelCr3).HasCore core) :
    (∃ c : Fin n, core = ⟨c, 0, false, none⟩) ∨
      core = ⟨n, initialRsp sentinelStack, false, none⟩ := by
  rcases h with ⟨c, hmem⟩ | hmem
  · rw [boot_cores] at hmem
    split at hmem
    · rw [List.mem_pair] at hmem
      exact hmem.imp_left fun heq => ⟨c, heq⟩
    · exact .inl ⟨c, List.mem_singleton.mp hmem⟩
  · cases hmem

theorem boot_keys (c : Fin n) :
    ((System.boot n sentinelStack kernelCr3).cpus c).sched.keys =
      if c.val = 0 then [c.val, n] else [c.val] := by
  rw [CpuScheduler.keys, boot_cores]
  split <;> rfl

theorem boot_distinct :
    Distinct (fun c => ((System.boot n sentinelStack kernelCr3).cpus c).sched.keys) [] := by
  simp only [boot_keys]
  refine ⟨?_, ?_, List.nodup_nil, nofun⟩
  · intro c
    split
    · simp only [List.nodup_cons, List.mem_singleton, List.not_mem_nil, not_false_eq_true,
        List.nodup_nil, and_true]
      omega
    · exact List.nodup_singleton _
  · intro c d key hc hd
    refine Fin.ext ?_
    split at hc <;> split at hd <;> grind

theorem boot_invariant (hkernel : kernelCr3 ≠ 0) :
    Invariant (System.boot n sentinelStack kernelCr3) := by
  refine .of_cores (fun c => ⟨?_, nofun, nofun, nofun, nofun, nofun, nofun, rfl⟩) boot_distinct
    (fun core hmem => ?_) hkernel
  · rw [boot_keys]
    split <;> rfl
  · rcases boot_hasCore hmem with ⟨c, rfl⟩ | rfl
    · exact ⟨fun hidle => absurd rfl (hidle c), nofun, Nat.lt_succ_of_lt c.isLt⟩
    · exact ⟨fun _ => by simp [System.boot], nofun, Nat.lt_succ_self n⟩

end Boot

/-- In every interleaving, on any number of CPUs, context switches are safe all
along exactly if each CPU switches tasks in its own queue and the task being suspended
stays at its place in its vector until its stack pointer is saved. -/
theorem contextSafe_iff_guarded (n sentinelStack : Nat) (kernelCr3 : { cr3 : Nat // cr3 ≠ 0 })
    (events : List (Event n)) :
    Guarded System.step System.Undisturbed (System.boot n sentinelStack kernelCr3) events ↔
      ∀ k, ContextSafe ((events.take k).foldl System.step
        (System.boot n sentinelStack kernelCr3)) := by
  have hstep : ∀ (s : System n) (event : Event n), Invariant s → s.Undisturbed event →
      Invariant (s.step event) := fun s event h => step_invariant h
  have hexact : ∀ (s : System n) (event : Event n), Invariant s → ContextSafe (s.step event) →
      s.Undisturbed event := fun s event h => undisturbed_of_contextSafe h
  exact guarded_iff_forall_take hstep (fun s => Invariant.contextSafe) hexact
    (boot_invariant kernelCr3.property)

/-- CPU 0 switches from the sentinel to a third task, and CPU 1 steals the sentinel
before its stack pointer is saved. -/
def stolenWhileSwitching : List (Event 2) :=
  [.spawn 0 0 0x30000, .yieldNow 0 0, .onContextSwitch 0, .switchContext 0 0x9000,
    .yieldNow 0 0, .steal 1 1 0]

/-- The save would then overwrite the stack pointer of the third task. -/
theorem save_hits_other_task :
    ¬ ContextSafe (stolenWhileSwitching.foldl System.step (System.boot 2 0x20000 0x1000)) := by
  intro h
  have hswitch : ((stolenWhileSwitching.foldl System.step
      (System.boot 2 0x20000 0x1000)).cpus 0).switch =
        some ⟨⟨0, 1⟩, initialRsp 0x30000, false, 0, none, 3⟩ := by decide
  have hrunning : ((stolenWhileSwitching.foldl System.step
      (System.boot 2 0x20000 0x1000)).cpus 0).running = 2 := by decide
  have hqueue : ((stolenWhileSwitching.foldl System.step
      (System.boot 2 0x20000 0x1000)).cpus 0).queue = 0 := by decide
  have hslot : (((stolenWhileSwitching.foldl System.step
      (System.boot 2 0x20000 0x1000)).cpus 0).sched.taskAt ⟨0, 1⟩).map Task.key = some 3 := by
    decide
  obtain ⟨task, hat, hkey⟩ := h.save 0 _ hswitch
  rw [hqueue] at hat
  rw [hat, Option.map_some, hkey, hrunning] at hslot
  cases hslot

end AuraOS.Scheduling
