import Mathlib

namespace AuraOS.RoundRobin

variable {α : Type*} [DecidableEq α] {queue chosen : List α} {cursor n : Nat} {t u : α}

/-- The elements whose turn comes before that of `t`. -/
def ahead (queue : List α) (cursor : Nat) (t : α) : List α :=
  (queue.rotate (cursor + 1)).takeWhile (· ≠ t)

theorem length_takeWhile_ne_lt {l : List α} (ht : t ∈ l) :
    (l.takeWhile (· ≠ t)).length < l.length := by
  refine lt_of_le_of_ne (List.takeWhile_prefix _).length_le fun heq => ?_
  have hall := List.takeWhile_eq_self_iff.mp ((List.takeWhile_prefix _).eq_of_length heq) t ht
  exact of_decide_eq_true hall rfl

theorem takeWhile_ne_sublist {l l' : List α} (h : l'.Sublist l) (hnodup : l.Nodup) (ht : t ∈ l') :
    (l'.takeWhile (· ≠ t)).Sublist (l.takeWhile (· ≠ t)) := by
  induction h with
  | slnil => exact .slnil
  | cons a hsub ih =>
    obtain ⟨ha, hnodup⟩ := List.nodup_cons.mp hnodup
    have hne : a ≠ t := fun heq => ha (heq ▸ hsub.subset ht)
    rw [List.takeWhile_cons, if_pos (decide_eq_true hne)]
    exact (ih hnodup ht).cons a
  | cons_cons a hsub ih =>
    rw [List.takeWhile_cons, List.takeWhile_cons]
    split
    · rename_i ha
      have hne : t ≠ a := Ne.symm (of_decide_eq_true ha)
      exact (ih hnodup.of_cons (List.mem_of_ne_of_mem hne ht)).cons_cons a
    · exact .slnil

omit [DecidableEq α] in
theorem rotate_eraseIdx_sublist (hcursor : cursor < queue.length) {idx : Nat} (hne : idx ≠ cursor) :
    ((queue.eraseIdx idx).rotate ((if idx < cursor then cursor - 1 else cursor) + 1)).Sublist
      (queue.rotate (cursor + 1)) := by
  obtain ⟨front, back, rfl, hfront⟩ :
      ∃ front back, queue = front ++ back ∧ front.length = cursor + 1 :=
    ⟨_, _, (List.take_append_drop (cursor + 1) queue).symm, List.length_take_of_le hcursor⟩
  rw [← hfront, List.rotate_append_length_eq]
  rcases Nat.lt_or_gt_of_ne hne with hlt | hgt
  · have hidx : idx < front.length := by omega
    have hlength : (front.eraseIdx idx).length = cursor - 1 + 1 := by
      rw [List.length_eraseIdx_of_lt hidx]
      omega
    rw [if_pos hlt, List.eraseIdx_append_of_lt_length hidx, ← hlength, List.rotate_append_length_eq]
    exact (List.Sublist.refl back).append (List.eraseIdx_sublist front idx)
  · rw [if_neg (by omega), List.eraseIdx_append_of_length_le (by omega), ← hfront,
      List.rotate_append_length_eq]
    exact (List.eraseIdx_sublist back _).append (List.Sublist.refl front)

theorem ahead_next {i : Nat} (hu : (queue.rotate (cursor + 1))[i]? = some u)
    (hbefore : ∀ j ≤ i, (queue.rotate (cursor + 1))[j]? ≠ some t) (ht : t ∈ queue) :
    ∃ skipped, ahead queue cursor t =
      skipped ++ u :: ahead queue ((cursor + (i + 1)) % queue.length) t := by
  have hrotate : queue.rotate ((cursor + (i + 1)) % queue.length + 1) =
      (queue.rotate (cursor + 1)).rotate (i + 1) := by
    rw [← List.rotate_rotate, List.rotate_mod, List.rotate_rotate, List.rotate_rotate]
    congr 1
    omega
  obtain ⟨hi, hget⟩ := List.getElem?_eq_some_iff.mp hu
  have ht' : t ∈ queue.rotate (cursor + 1) := List.mem_rotate.mpr ht
  rw [ahead, ahead, hrotate]
  generalize queue.rotate (cursor + 1) = order at *
  have hskipped : ∀ a ∈ order.take (i + 1), decide (a ≠ t) = true := by
    intro a ha
    obtain ⟨j, hj⟩ := List.mem_iff_getElem?.mp ha
    rw [List.getElem?_take] at hj
    split at hj
    · refine decide_eq_true ?_
      rintro rfl
      exact hbefore j (by omega) hj
    · cases hj
  have hrest : t ∈ order.drop (i + 1) := by
    rw [← List.take_append_drop (i + 1) order] at ht'
    rcases List.mem_append.mp ht' with hmem | hmem
    · exact absurd rfl (of_decide_eq_true (hskipped t hmem))
    · exact hmem
  refine ⟨order.take i, ?_⟩
  rw [List.rotate_eq_drop_append_take hi, List.takeWhile_append,
    if_neg (length_takeWhile_ne_lt hrest).ne]
  conv_lhs => rw [← List.take_append_drop (i + 1) order]
  rw [List.takeWhile_append_of_pos hskipped, List.take_add_one, hu]
  simp

/-- What was chosen while `t` waits, with those ahead of it, in a queue of less than `n + 1`. -/
structure Waits (queue : List α) (cursor : Nat) (t : α) (n : Nat) (chosen : List α) : Prop where
  distinct : queue.Nodup
  length : queue.length ≤ n
  valid : chosen = [] ∨ cursor < queue.length
  others : t ∉ chosen
  once : (chosen ++ ahead queue cursor t).Nodup
  bound : (chosen ++ ahead queue cursor t).length < n

theorem Waits.served (h : Waits queue cursor t n chosen) : chosen.Nodup ∧ chosen.length < n := by
  have hsub := List.sublist_append_left chosen (ahead queue cursor t)
  exact ⟨h.once.sublist hsub, hsub.length_le.trans_lt h.bound⟩

theorem Waits.start (hdistinct : queue.Nodup) (hlength : queue.length ≤ n) (ht : t ∈ queue) :
    Waits queue cursor t n [] := by
  have hsub : (ahead queue cursor t).Sublist (queue.rotate (cursor + 1)) :=
    (List.takeWhile_prefix _).sublist
  have hshort := length_takeWhile_ne_lt (List.mem_rotate.mpr ht : t ∈ queue.rotate (cursor + 1))
  rw [List.length_rotate] at hshort
  exact ⟨hdistinct, hlength, .inl rfl, List.not_mem_nil,
    (List.nodup_rotate.mpr hdistinct).sublist hsub, hshort.trans_le hlength⟩

theorem Waits.erase (h : Waits queue cursor t n chosen) {idx : Nat} (hne : idx ≠ cursor)
    (ht : t ∈ queue.eraseIdx idx) :
    Waits (queue.eraseIdx idx) (if idx < cursor then cursor - 1 else cursor) t n chosen := by
  have hdistinct := h.distinct.sublist (List.eraseIdx_sublist queue idx)
  have hlength := ((List.eraseIdx_sublist queue idx).length_le).trans h.length
  rcases h.valid with rfl | hcursor
  · exact .start hdistinct hlength ht
  have hsub : (chosen ++ ahead (queue.eraseIdx idx) (if idx < cursor then cursor - 1 else cursor)
      t).Sublist (chosen ++ ahead queue cursor t) :=
    (List.Sublist.refl chosen).append (takeWhile_ne_sublist (rotate_eraseIdx_sublist hcursor hne)
      (List.nodup_rotate.mpr h.distinct) (List.mem_rotate.mpr ht))
  refine ⟨hdistinct, hlength, .inr ?_, h.others, h.once.sublist hsub,
    hsub.length_le.trans_lt h.bound⟩
  rw [List.length_eraseIdx]
  split <;> split <;> omega

theorem Waits.choose (h : Waits queue cursor t n chosen) {i : Nat}
    (hu : (queue.rotate (cursor + 1))[i]? = some u)
    (hbefore : ∀ j ≤ i, (queue.rotate (cursor + 1))[j]? ≠ some t) (ht : t ∈ queue) :
    Waits queue ((cursor + (i + 1)) % queue.length) t n (chosen ++ [u]) := by
  obtain ⟨skipped, hahead⟩ := ahead_next hu hbefore ht
  have hsub : (chosen ++ [u] ++ ahead queue ((cursor + (i + 1)) % queue.length) t).Sublist
      (chosen ++ ahead queue cursor t) := by
    rw [hahead, List.append_assoc]
    exact (List.Sublist.refl chosen).append (List.sublist_append_right skipped _)
  refine ⟨h.distinct, h.length, .inr (Nat.mod_lt _ (List.length_pos_of_mem ht)), ?_,
    h.once.sublist hsub, hsub.length_le.trans_lt h.bound⟩
  simp only [List.mem_append, List.mem_singleton, not_or]
  refine ⟨h.others, ?_⟩
  rintro rfl
  exact hbefore i le_rfl hu

end AuraOS.RoundRobin
