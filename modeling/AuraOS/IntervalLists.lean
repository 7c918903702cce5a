import Mathlib

namespace AuraOS.IntervalLists

structure Interval where
  start : Nat
  size : Nat
  deriving DecidableEq, Repr

variable {i j : Interval} {l m : List Interval} {x gap : Nat}

def Interval.stop (i : Interval) : Nat :=
  i.start + i.size

def Interval.Has (i : Interval) (x : Nat) : Prop :=
  i.start ≤ x ∧ x < i.stop

def Interval.Disjoint (i j : Interval) : Prop :=
  i.stop ≤ j.start ∨ j.stop ≤ i.start

attribute [grind =] Interval.stop Interval.Has Interval.Disjoint

def Covers (l : List Interval) (x : Nat) : Prop :=
  ∃ i ∈ l, i.Has x

def total (l : List Interval) : Nat :=
  (l.map Interval.size).sum

structure IsMaximal (S : Nat → Prop) (i : Interval) : Prop where
  nonempty : 0 < i.size
  inside : ∀ x, i.Has x → S x
  left : ∀ x, x + 1 = i.start → ¬ S x
  right : ¬ S i.stop

/-- Ascending intervals with at least `gap` elements between neighbours. -/
def Separated (gap : Nat) (l : List Interval) : Prop :=
  l.Pairwise fun i j => i.stop + gap ≤ j.start

theorem covers_nil (x : Nat) : ¬ Covers [] x := by
  simp [Covers]

theorem covers_cons : Covers (i :: l) x ↔ i.Has x ∨ Covers l x := by
  simp [Covers]

theorem covers_append : Covers (l ++ m) x ↔ Covers l x ∨ Covers m x := by
  simp [Covers, or_and_right, exists_or]

@[simp] theorem total_nil : total [] = 0 := rfl

@[simp] theorem total_cons (i : Interval) (l : List Interval) :
    total (i :: l) = i.size + total l := by
  simp [total]

@[simp] theorem total_append (l m : List Interval) : total (l ++ m) = total l + total m := by
  simp [total]

theorem Interval.disjoint_of_not_has (hi : 0 < i.size) (hj : 0 < j.size)
    (h : ∀ x, i.Has x → ¬ j.Has x) : i.Disjoint j := by
  have hmax := h (max i.start j.start)
  grind

theorem Interval.Disjoint.not_has (h : i.Disjoint j) (hx : i.Has x) : ¬ j.Has x := by
  grind

theorem Interval.Disjoint.symm (h : i.Disjoint j) : j.Disjoint i :=
  Or.symm h

theorem Covers.congr_mem (h : ∀ i, i ∈ l ↔ i ∈ m) (x : Nat) : Covers l x ↔ Covers m x := by
  simp [Covers, h]

theorem Separated.mono {gap' : Nat} (h : Separated gap' l) (hle : gap ≤ gap') : Separated gap l :=
  h.imp fun hij => by omega

theorem Separated.apart (h : Separated gap l) (hi : i ∈ l) (hj : j ∈ l) (hne : i ≠ j) :
    i.stop + gap ≤ j.start ∨ j.stop + gap ≤ i.start := by
  let R : Interval → Interval → Prop :=
    fun i j => i.stop + gap ≤ j.start ∨ j.stop + gap ≤ i.start
  have : Std.Symm R := ⟨fun _ _ => Or.symm⟩
  have hsymm : l.Pairwise R := h.imp .inl
  exact hsymm.forall hi hj hne

theorem exists_finset_covers (h : l.Pairwise fun i j => ∀ x, i.Has x → ¬ j.Has x) :
    ∃ s : Finset Nat, (∀ x, x ∈ s ↔ Covers l x) ∧ s.card = total l := by
  induction l with
  | nil => exact ⟨∅, fun x => by simp [covers_nil], rfl⟩
  | cons i l ih =>
    obtain ⟨hi, hl⟩ := List.pairwise_cons.mp h
    obtain ⟨s, hmem, hcard⟩ := ih hl
    have hdisjoint : Disjoint (Finset.Ico i.start i.stop) s := by
      rw [Finset.disjoint_left]
      intro x hx hxs
      obtain ⟨j, hj, hjx⟩ := (hmem x).mp hxs
      exact hi j hj x (Finset.mem_Ico.mp hx) hjx
    refine ⟨Finset.Ico i.start i.stop ∪ s, ?_, ?_⟩
    · intro x
      rw [Finset.mem_union, hmem, covers_cons, Finset.mem_Ico, Interval.Has]
    · rw [Finset.card_union_of_disjoint hdisjoint, hcard, Nat.card_Ico, total_cons,
        Interval.stop, Nat.add_sub_cancel_left]

theorem total_le_of_disjoint {bound : Nat} (h : l.Pairwise fun i j => ∀ x, i.Has x → ¬ j.Has x)
    (hbound : ∀ i ∈ l, i.stop ≤ bound) : total l ≤ bound := by
  obtain ⟨s, hmem, hcard⟩ := exists_finset_covers h
  have hsub : s ⊆ Finset.range bound := by
    intro x hx
    obtain ⟨i, hi, -, hlt⟩ := (hmem x).mp hx
    exact Finset.mem_range.mpr (Nat.lt_of_lt_of_le hlt (hbound i hi))
  have hle := Finset.card_le_card hsub
  rwa [hcard, Finset.card_range] at hle

section Canonical

variable {l : List Interval}

theorem isMaximal_of_mem (hsep : Separated 1 l) (hpos : ∀ i ∈ l, 0 < i.size) (hi : i ∈ l) :
    IsMaximal (Covers l) i where
  nonempty := hpos i hi
  inside := fun x hx => ⟨i, hi, hx⟩
  left := by
    rintro x hx ⟨j, hj, hjx⟩
    simp only [Interval.Has, Interval.stop] at hjx
    by_cases hij : i = j
    · subst hij
      omega
    · have := hsep.apart hi hj hij
      grind
  right := by
    rintro ⟨j, hj, hjx⟩
    simp only [Interval.Has, Interval.stop] at hjx
    by_cases hij : i = j
    · subst hij
      omega
    · have := hsep.apart hi hj hij
      grind

theorem mem_iff_isMaximal (hsep : Separated 1 l) (hpos : ∀ i ∈ l, 0 < i.size)
    (i : Interval) : i ∈ l ↔ IsMaximal (Covers l) i := by
  refine ⟨isMaximal_of_mem hsep hpos, fun h => ?_⟩
  have hnonempty := h.nonempty
  obtain ⟨j, hj, hjlo, hjhi⟩ := h.inside i.start ⟨le_rfl, by simp [Interval.stop, hnonempty]⟩
  have hjmax := isMaximal_of_mem hsep hpos hj
  have hstart : i.start = j.start := by
    by_contra hne
    refine h.left (i.start - 1) (by omega) ⟨j, hj, ?_⟩
    exact ⟨by omega, by omega⟩
  have hstop : i.stop = j.stop := by
    rcases Nat.lt_trichotomy i.stop j.stop with hlt | heq | hgt
    · refine absurd ⟨j, hj, ?_⟩ h.right
      grind
    · exact heq
    · refine absurd (h.inside j.stop ?_) hjmax.right
      grind
  have hsize : i.size = j.size := by
    grind
  have hij : i = j := by
    cases i
    cases j
    simp_all
  exact hij ▸ hj

theorem Separated.nodup (hsep : Separated 1 l) : l.Nodup := by
  refine hsep.imp ?_
  rintro i j hij rfl
  grind

theorem Separated.unique (hl : Separated 1 l) (hm : Separated 1 m) (hlpos : ∀ i ∈ l, 0 < i.size)
    (hmpos : ∀ i ∈ m, 0 < i.size) (hcover : ∀ x, Covers l x ↔ Covers m x) : l = m := by
  have hset : Covers l = Covers m := funext fun x => propext (hcover x)
  have hmem : ∀ i, i ∈ l ↔ i ∈ m := by
    intro i
    rw [mem_iff_isMaximal hl hlpos, mem_iff_isMaximal hm hmpos, hset]
  have hperm : l.Perm m := (List.perm_ext_iff_of_nodup hl.nodup hm.nodup).mpr hmem
  refine hperm.eq_of_pairwise ?_ hl hm
  intro i j _ _ hij hji
  grind

end Canonical

end AuraOS.IntervalLists
