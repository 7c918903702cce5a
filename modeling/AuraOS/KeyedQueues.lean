import Mathlib

namespace AuraOS.KeyedQueues

section Maps

variable {K V : Type*} [DecidableEq K]

section Queues

variable (queues : AList fun _ : K => List V)

def queue (key : K) : List V :=
  (queues.lookup key).getD []

def itemCount (entries : List (Sigma fun _ : K => List V)) : Nat :=
  (entries.map fun entry => entry.2.length).sum

def pending : Nat :=
  itemCount queues.entries

@[simp]
theorem queue_empty (key : K) : queue (∅ : AList fun _ : K => List V) key = [] :=
  rfl

@[simp]
theorem queue_insert_self (key : K) (items : List V) :
    queue (queues.insert key items) key = items := by
  simp [queue]

theorem queue_insert_ne {key other : K} (items : List V) (h : other ≠ key)
    : queue (queues.insert key items) other = queue queues other := by
  simp [queue, AList.lookup_insert_ne h]

theorem queue_of_notMem {queues : AList fun _ : K => List V} {key : K} (h : key ∉ queues) :
    queue queues key = [] := by
  simp [queue, AList.lookup_eq_none.mpr h]

theorem itemCount_kerase (entries : List (Sigma fun _ : K => List V)) (key : K) :
    itemCount (entries.kerase key) + ((entries.dlookup key).getD []).length =
      itemCount entries := by
  induction entries with
  | nil => rfl
  | cons entry rest ih =>
    obtain ⟨other, items⟩ := entry
    by_cases h : key = other
    · subst h
      simp [itemCount, Nat.add_comm]
    · have hne : key ≠ (⟨other, items⟩ : Sigma fun _ : K => List V).1 := h
      rw [List.kerase_cons_ne hne, List.dlookup_cons_ne rest _ hne]
      simp only [itemCount, List.map_cons, List.sum_cons] at ih ⊢
      omega

theorem pending_insert (key : K) (items : List V) :
    pending (queues.insert key items) + (queue queues key).length =
      pending queues + items.length := by
  have herase := itemCount_kerase queues.entries key
  have hinsert : pending (queues.insert key items) =
      items.length + itemCount (queues.entries.kerase key) := by
    simp [pending, itemCount, AList.entries_insert]
  simp only [queue, AList.lookup, pending] at herase hinsert ⊢
  omega

end Queues

end Maps

section Runs

variable {S A V : Type*}

def logged (step : S → A → S) (log : S → A → List V) : S → List A → List V
  | _, [] => []
  | s, a :: rest => log s a ++ logged step log (step s a) rest

theorem logged_conserved {step : S → A → S} {contents : S → List V}
    {entering leaving : S → A → List V}
    (hstep : ∀ s a, contents s ++ entering s a = leaving s a ++ contents (step s a))
    (s : S) (ops : List A) :
    contents s ++ logged step entering s ops =
      logged step leaving s ops ++ contents (ops.foldl step s) := by
  induction ops generalizing s with
  | nil => simp [logged]
  | cons a rest ih =>
    calc contents s ++ (entering s a ++ logged step entering (step s a) rest)
        = leaving s a ++ (contents (step s a) ++ logged step entering (step s a) rest) := by
          rw [← List.append_assoc, hstep, List.append_assoc]
      _ = leaving s a ++ (logged step leaving (step s a) rest ++
            contents (rest.foldl step (step s a))) := by rw [ih]
      _ = _ := (List.append_assoc ..).symm

theorem logged_map {W : Type*} (step : S → A → S) (log : S → A → List V) (f : V → W) (s : S)
    (ops : List A) :
    logged step (fun s a => (log s a).map f) s ops = (logged step log s ops).map f := by
  induction ops generalizing s with
  | nil => rfl
  | cons a rest ih => rw [logged, logged, ih, List.map_append]

theorem mem_logged {step : S → A → S} {log : S → A → List V} {s : S} {ops : List A} {v : V}
    (h : v ∈ logged step log s ops) : ∃ t, ∃ a ∈ ops, v ∈ log t a := by
  induction ops generalizing s with
  | nil => cases h
  | cons a rest ih =>
    rcases List.mem_append.mp h with h | h
    · exact ⟨s, a, .head _, h⟩
    · obtain ⟨t, b, hb, hv⟩ := ih h
      exact ⟨t, b, .tail _ hb, hv⟩

end Runs

end AuraOS.KeyedQueues
