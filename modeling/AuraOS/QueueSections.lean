import AuraOS.Scheduler

namespace AuraOS.Scheduling

variable {sched : CpuScheduler} {idx : Nat}

@[simp] theorem tasks_push (sched : CpuScheduler) (task : Task) :
    (sched.push task).tasks = sched.tasks ++ [task] := by
  simp only [CpuScheduler.push]
  split <;> rfl

@[simp] theorem current_push (sched : CpuScheduler) (task : Task) :
    (sched.push task).current = sched.current := by
  simp only [CpuScheduler.push]
  split <;> rfl

theorem getElem?_modifyAt (sched : CpuScheduler) (idx i : Nat) (f : Task → Task) :
    (sched.modifyAt idx f).tasks[i]? =
      if idx = i then sched.tasks[i]?.map f else sched.tasks[i]? := by
  simp only [CpuScheduler.modifyAt, List.getElem?_modify]
  split <;> cases sched.tasks[i]? <;> simp

theorem mem_modifyAt {f : Task → Task} {task : Task} (h : task ∈ (sched.modifyAt idx f).tasks) :
    task ∈ sched.tasks ∨ ∃ old ∈ sched.tasks, f old = task := by
  obtain ⟨i, hi⟩ := List.mem_iff_getElem?.mp h
  rw [getElem?_modifyAt] at hi
  split at hi
  · obtain ⟨old, hold, rfl⟩ := Option.map_eq_some_iff.mp hi
    exact .inr ⟨old, List.mem_of_getElem? hold, rfl⟩
  · exact .inl (List.mem_of_getElem? hi)

theorem pickNext_spec (h : sched.pickNext = some idx) :
    ∃ task, sched.tasks[idx]? = some task ∧
      (task.state = .ready ∨ idx = sched.current ∧ task.state = .running) := by
  simp only [CpuScheduler.pickNext] at h
  split at h
  · cases h
  split at h
  · rename_i i hfind
    cases h
    have hready := List.find?_some hfind
    simp only [CpuScheduler.isReady, Option.any_eq_true, decide_eq_true_eq] at hready
    obtain ⟨task, hget, hstate⟩ := hready
    exact ⟨task, hget, .inl hstate⟩
  · split at h
    · rename_i task hget
      split at h
      · rename_i hstate
        cases h
        exact ⟨task, hget, hstate.symm.imp_right fun hrunning => ⟨rfl, hrunning⟩⟩
      · cases h
    · cases h

theorem isReady_iff : sched.isReady idx = true ↔
    ∃ task, sched.tasks[idx]? = some task ∧ task.state = .ready := by
  simp only [CpuScheduler.isReady, Option.any_eq_true, decide_eq_true_eq]

theorem getElem?_rotate_tasks (sched : CpuScheduler) {i : Nat} (h : i < sched.tasks.length) :
    (sched.tasks.rotate (sched.current + 1))[i]? =
      sched.tasks[(sched.current + (i + 1)) % sched.tasks.length]? := by
  rw [List.getElem?_rotate h]
  congr 2
  omega

theorem pickNext_of_ready (h : sched.isReady idx = true) :
    ∃ i < sched.tasks.length,
      sched.pickNext = some ((sched.current + (i + 1)) % sched.tasks.length) ∧
      sched.isReady ((sched.current + (i + 1)) % sched.tasks.length) = true ∧
      ∀ j < i, sched.isReady ((sched.current + (j + 1)) % sched.tasks.length) = false := by
  obtain ⟨task, hget, hready⟩ := isReady_iff.mp h
  have hmem := List.mem_of_getElem? hget
  have hsome : ((List.range sched.tasks.length).find? fun i =>
      sched.isReady ((sched.current + (i + 1)) % sched.tasks.length)).isSome := by
    obtain ⟨i, hi⟩ := List.mem_iff_getElem?.mp (List.mem_rotate.mpr hmem)
    have hlt : i < sched.tasks.length := by
      simpa using (List.getElem?_eq_some_iff.mp hi).1
    rw [List.find?_isSome]
    rw [getElem?_rotate_tasks sched hlt] at hi
    exact ⟨i, List.mem_range.mpr hlt, isReady_iff.mpr ⟨task, hi, hready⟩⟩
  obtain ⟨first, hfirst⟩ := Option.isSome_iff_exists.mp hsome
  obtain ⟨hchosen, hlt, hbefore⟩ := List.find?_range_eq_some.mp hfirst
  refine ⟨first, List.mem_range.mp hlt, ?_, hchosen, fun j hj => by simpa using hbefore j hj⟩
  have hempty : sched.tasks.isEmpty = false := by
    simpa using List.ne_nil_of_mem hmem
  simp only [CpuScheduler.pickNext, hempty, hfirst, Bool.false_eq_true, if_false]

/-- `next` is the ready task, other than the current one, that the queue goes on with. -/
structure CpuScheduler.GoesOn (sched : CpuScheduler) (next : Nat) (task : Task) : Prop where
  pick : sched.pickNext = some next
  other : next ≠ sched.current
  get : sched.tasks[next]? = some task
  ready : task.state = .ready

theorem goesOn_of_pickNext {next : Nat} (h : sched.pickNext = some next)
    (hne : next ≠ sched.current) : ∃ task, sched.GoesOn next task := by
  obtain ⟨task, hget, hready | ⟨hcurrent, -⟩⟩ := pickNext_spec h
  · exact ⟨task, h, hne, hget, hready⟩
  · exact absurd hcurrent hne

theorem yieldNow_cases (sched : CpuScheduler) :
    sched.yieldNow = (none, sched) ∨
      ∃ next task, sched.GoesOn next task ∧ sched.yieldNow = sched.switchTo next := by
  rw [CpuScheduler.yieldNow]
  split
  · exact .inl rfl
  split
  · exact .inl rfl
  rename_i next hpick
  split
  · exact .inl rfl
  · rename_i hne
    obtain ⟨task, hgoes⟩ := goesOn_of_pickNext hpick hne
    exact .inr ⟨next, task, hgoes, rfl⟩

theorem preemptSchedule_cases (sched : CpuScheduler) :
    let reset := sched.modifyAt sched.current Task.resetQuantum
    sched.preemptSchedule = (none, sched) ∨ sched.preemptSchedule = (none, reset) ∨
      ∃ next task, reset.GoesOn next task ∧ sched.preemptSchedule =
        ((reset.switchTo next).1, (reset.switchTo next).2.modifyAt next Task.resetQuantum) := by
  rw [CpuScheduler.preemptSchedule]
  split
  · exact .inl rfl
  split
  · exact .inl rfl
  split
  · exact .inl rfl
  simp only
  split
  · exact .inr (.inl rfl)
  rename_i next hpick
  split
  · exact .inr (.inl rfl)
  · rename_i hne
    obtain ⟨task, hgoes⟩ := goesOn_of_pickNext hpick hne
    exact .inr (.inr ⟨next, task, hgoes, rfl⟩)

structure Kept (P : CpuScheduler → Prop) : Prop where
  resetQuantum : ∀ {sched} idx, P sched → P (sched.modifyAt idx Task.resetQuantum)
  switchTo : ∀ {sched next task}, sched.GoesOn next task → P sched → P (sched.switchTo next).2

theorem Kept.yieldNow {P : CpuScheduler → Prop} (hP : Kept P) (h : P sched) :
    P sched.yieldNow.2 := by
  rcases yieldNow_cases sched with hstay | ⟨next, task, hgoes, hswitch⟩
  · rwa [hstay]
  · rw [hswitch]
    exact hP.switchTo hgoes h

theorem Kept.preemptSchedule {P : CpuScheduler → Prop} (hP : Kept P) (h : P sched) :
    P sched.preemptSchedule.2 := by
  have hreset := hP.resetQuantum sched.current h
  rcases preemptSchedule_cases sched with hstay | hstay | ⟨next, task, hgoes, hswitch⟩
  · rwa [hstay]
  · rwa [hstay]
  · rw [hswitch]
    exact hP.resetQuantum next (hP.switchTo hgoes hreset)

theorem stealTask_cases (sched : CpuScheduler) :
    sched.stealTask = (none, sched) ∨ ∃ idx task, sched.tasks[idx]? = some task ∧ idx ≠ 0 ∧
      idx ≠ sched.current ∧ task.state = .ready ∧
      sched.stealTask = (some task, sched.removeAt idx) := by
  cases hidx : sched.stealIndex with
  | none => exact .inl (by simp only [CpuScheduler.stealTask, hidx])
  | some idx =>
    have hsteal : sched.stealTask = (sched.tasks[idx]?, sched.removeAt idx) := by
      simp only [CpuScheduler.stealTask, hidx]
    simp only [CpuScheduler.stealIndex] at hidx
    split at hidx
    · have hfound := List.find?_some hidx
      simp only [Bool.and_eq_true, decide_eq_true_eq, Option.any_eq_true] at hfound
      obtain ⟨⟨hzero, hcurrent⟩, task, hget, hready, -⟩ := hfound
      exact .inr ⟨idx, task, hget, hzero, hcurrent, hready, hget ▸ hsteal⟩
    · cases hidx

theorem markDead_cases (sched : CpuScheduler) (tid : Nat) :
    sched.markDead tid = sched ∧ (∀ task ∈ sched.tasks, task.id ≠ tid) ∨
      ∃ idx task, sched.tasks[idx]? = some task ∧ task.id = tid ∧
        sched.markDead tid = sched.modifyAt idx (Task.setState .dead) := by
  rw [CpuScheduler.markDead]
  split
  · rename_i hnone
    exact .inl ⟨rfl, by simpa using hnone⟩
  · rename_i idx hidx
    obtain ⟨hlt, hid, -⟩ := List.findIdx?_eq_some_iff_getElem.mp hidx
    exact .inr ⟨idx, _, List.getElem?_eq_getElem hlt, of_decide_eq_true hid, rfl⟩

theorem markDead_of_modifyAt {P : CpuScheduler → Prop} (h : P sched)
    (hdead : ∀ idx, P (sched.modifyAt idx (Task.setState .dead))) (tid : Nat) :
    P (sched.markDead tid) := by
  rcases markDead_cases sched tid with ⟨hsame, -⟩ | ⟨idx, task, -, -, hmark⟩
  · rwa [hsame]
  · rw [hmark]
    exact hdead idx

theorem reapFrom_induction {P : CpuScheduler → Prop}
    (hremove : ∀ sched idx task, sched.tasks[idx]? = some task → task.state = .dead →
      idx ≠ sched.current → P sched → P (sched.removeAt idx))
    (h : P sched) (remaining i : Nat) : P (CpuScheduler.reapFrom remaining i sched) := by
  induction remaining generalizing i sched with
  | zero => exact h
  | succ remaining ih =>
    simp only [CpuScheduler.reapFrom]
    split
    · exact ih h _
    rename_i hne
    split
    · rename_i hdead
      simp only [Option.any_eq_true, decide_eq_true_eq] at hdead
      obtain ⟨task, hget, hstate⟩ := hdead
      exact ih (hremove sched i task hget hstate hne h) i
    · exact ih h _

end AuraOS.Scheduling
