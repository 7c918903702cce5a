import Mathlib

/-!
Rings of `n` slots between a producer and a consumer.  The items put into a ring are
numbered from zero, and item `i` goes to slot `i` modulo `n`.  As long as fewer than
`n` items are outstanding, a new item overwrites none of them, and the positions of
the two ends determine what is outstanding.
-/

namespace AuraOS.RingSlots

variable {α : Type*} {n : Nat} [NeZero n]

/-- The slot of item `i`. -/
def slot (n : Nat) [NeZero n] (i : Nat) : Fin n := Fin.ofNat n i

@[simp]
theorem slot_succ (i : Nat) : slot n i + 1 = slot n (i + 1) :=
  Fin.ext (by simp [slot, Fin.val_add])

theorem slot_add (i k : Nat) : slot n i + slot n k = slot n (i + k) :=
  Fin.ext (by simp [slot, Fin.val_add])

theorem slot_eq_iff {i j : Nat} : slot n i = slot n j ↔ i % n = j % n := by
  simp [slot, Fin.ext_iff]

theorem slot_ne {i j : Nat} (h : i < j) (hturn : j < i + n) : slot n i ≠ slot n j := by
  rw [Ne, slot_eq_iff]
  intro heq
  have hdvd : n ∣ j - i :=
    Nat.dvd_of_mod_eq_zero (Nat.sub_mod_eq_zero_of_mod_eq heq.symm)
  exact absurd (Nat.le_of_dvd (by omega) hdvd) (by omega)

theorem slot_eq_iff_of_le {i j : Nat} (h : i ≤ j) (hturn : j < i + n) :
    slot n i = slot n j ↔ i = j := by
  constructor
  · intro heq
    by_contra hne
    exact slot_ne (by omega) hturn heq
  · exact congrArg (slot n)

/-- The slots hold the items from number `first` on. -/
def Holds (content : Fin n → α) (items : List α) (first : Nat) : Prop :=
  ∀ i, first ≤ i → (h : i < items.length) → content (slot n i) = items[i]

section Holds

variable {content : Fin n → α} {items : List α} {first : Nat}

theorem Holds.nil : Holds content [] first :=
  fun _ _ h => absurd h (Nat.not_lt_zero _)

theorem Holds.concat {content' : Fin n → α} {item : α} (h : Holds content items first)
    (hturn : items.length < first + n) (hnew : content' (slot n items.length) = item)
    (hold : ∀ k, k ≠ slot n items.length → content' k = content k) :
    Holds content' (items ++ [item]) first := by
  intro i hfirst hi
  rcases Nat.lt_or_ge i items.length with hlt | hge
  · rw [hold _ (slot_ne hlt (by omega)), List.getElem_append_left hlt]
    exact h i hfirst hlt
  · obtain rfl : i = items.length := by simp at hi; omega
    rw [List.getElem_concat_length rfl]
    exact hnew

theorem Holds.of_le {first' : Nat} (h : Holds content items first) (hle : first ≤ first') :
    Holds content items first' :=
  fun i hi => h i (Nat.le_trans hle hi)

end Holds

/-- The contents of the slots from `head` up to but excluding `tail`. -/
def between (content : Fin n → α) (head tail : Fin n) : List α :=
  (List.range (tail - head).val).map fun k => content (head + slot n k)

@[simp]
theorem between_self (content : Fin n → α) (head : Fin n) : between content head head = [] := by
  simp [between]

theorem length_between (content : Fin n → α) (head tail : Fin n) :
    (between content head tail).length < n := by
  simp [between]

theorem between_of_ne (content : Fin n → α) {head tail : Fin n} (h : head ≠ tail) :
    between content head tail = content head :: between content (head + 1) tail := by
  have hdistance : tail - head ≠ 0 := sub_ne_zero.mpr h.symm
  have hcount : (tail - head).val = (tail - (head + 1)).val + 1 := by
    rw [← sub_sub, Fin.val_sub_one_of_ne_zero hdistance]
    have := Fin.pos_iff_ne_zero.mpr hdistance
    omega
  have hnext : ∀ k, head + slot n (k + 1) = head + 1 + slot n k := fun k => by
    rw [← slot_succ, add_right_comm, add_assoc]
  have hfirst : head + slot n 0 = head := by simp [slot]
  simp only [between, hcount, List.range_succ_eq_map, List.map_cons, List.map_map,
    Function.comp_def, Nat.succ_eq_add_one, hnext, hfirst]

theorem between_concat (content : Fin n → α) {head tail : Fin n} (h : tail + 1 ≠ head) (item : α) :
    between (Function.update content tail item) head (tail + 1) =
      between content head tail ++ [item] := by
  have hnext : tail + 1 - head = tail - head + 1 := (sub_add_eq_add_sub tail head 1).symm
  have hdistance : tail - head + 1 ≠ 0 := hnext ▸ sub_ne_zero.mpr h
  have hcount : (tail + 1 - head).val = (tail - head).val + 1 := by
    have hval := Fin.val_sub_one_of_ne_zero hdistance
    have hpos := Fin.pos_iff_ne_zero.mpr hdistance
    rw [add_sub_cancel_right] at hval
    omega
  have hlast : head + slot n (tail - head).val = tail := by
    rw [slot, Fin.ofNat_val_eq_self, add_sub_cancel]
  simp only [between, hcount, List.range_succ, List.map_append, List.map_cons, List.map_nil, hlast,
    Function.update_self]
  congr 1
  refine List.map_congr_left fun k hk => Function.update_of_ne ?_ _ _
  rw [← hlast, Ne, add_right_inj]
  have hlt := List.mem_range.mp hk
  exact slot_ne hlt (Nat.lt_add_left k (tail - head).isLt)

theorem Holds.between {content : Fin n → α} {items : List α} {first : Nat}
    (h : Holds content items first) (hle : first ≤ items.length)
    (hturn : items.length < first + n) :
    between content (slot n first) (slot n items.length) = items.drop first := by
  have hcount : (slot n items.length - slot n first).val = items.length - first := by
    have hsplit : slot n first + slot n (items.length - first) = slot n items.length := by
      rw [slot_add, Nat.add_sub_cancel' hle]
    rw [← hsplit, add_sub_cancel_left]
    exact Nat.mod_eq_of_lt (by omega)
  refine List.ext_getElem ?_ ?_
  · simp [RingSlots.between, hcount]
  · intro k hk _
    simp only [RingSlots.between, List.length_map, List.length_range, hcount] at hk
    simp only [RingSlots.between, List.getElem_map, List.getElem_range, List.getElem_drop, slot_add]
    exact h (first + k) (by omega) (by omega)

end AuraOS.RingSlots
