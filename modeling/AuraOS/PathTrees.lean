import Mathlib

namespace AuraOS.PathTrees

open Function

variable {I A : Type*}

structure PathTree (I A : Type*) where
  node : List I → Option A
  closed : ∀ path i, (node (path ++ [i])).isSome → (node path).isSome
  unique : ∀ path path' a, node path = some a → node path' = some a → path = path'

def PathTree.Has (tree : PathTree I A) (a : A) : Prop :=
  ∃ path, tree.node path = some a

def PathTree.empty : PathTree I A :=
  ⟨fun _ => none, fun _ _ h => h, fun _ _ _ h => nomatch h⟩

theorem not_has_empty (a : A) : ¬ (PathTree.empty : PathTree I A).Has a := by
  rintro ⟨path, hpath⟩
  cases hpath

def PathTree.single (a : A) : PathTree I A where
  node
    | [] => some a
    | _ :: _ => none
  closed := by
    intro path i hnamed
    cases path <;> cases hnamed
  unique := by
    intro path path' b hpath hpath'
    cases path with
    | nil =>
      cases path' with
      | nil => rfl
      | cons => cases hpath'
    | cons => cases hpath

theorem single_isSome (a : A) : ((PathTree.single a : PathTree I A).node []).isSome = true := rfl

theorem single_has (a b : A) : (PathTree.single a : PathTree I A).Has b ↔ b = a := by
  constructor
  · rintro ⟨path, hpath⟩
    cases path with
    | nil => exact (Option.some.inj hpath).symm
    | cons => cases hpath
  · rintro rfl
    exact ⟨[], rfl⟩

variable [DecidableEq I]

def PathTree.extend (tree : PathTree I A) (path : List I) (i : I) (a : A)
    (hparent : (tree.node path).isSome) (hfresh : ¬ tree.Has a) : PathTree I A where
  node := update tree.node (path ++ [i]) (some a)
  closed := by
    intro path' j hnamed
    by_cases hself : path' = path ++ [i]
    · simp [hself]
    · rw [update_of_ne hself]
      by_cases hnew : path' ++ [j] = path ++ [i]
      · rw [(List.append_inj' hnew rfl).1]
        exact hparent
      · rw [update_of_ne hnew] at hnamed
        exact tree.closed path' j hnamed
  unique := by
    intro p q b hp hq
    by_cases hpnew : p = path ++ [i]
    · by_cases hqnew : q = path ++ [i]
      · rw [hpnew, hqnew]
      · rw [hpnew, update_self] at hp
        rw [update_of_ne hqnew] at hq
        exact absurd ⟨q, hq.trans hp.symm⟩ hfresh
    · rw [update_of_ne hpnew] at hp
      by_cases hqnew : q = path ++ [i]
      · rw [hqnew, update_self] at hq
        exact absurd ⟨p, hp.trans hq.symm⟩ hfresh
      · rw [update_of_ne hqnew] at hq
        exact tree.unique p q b hp hq

def PathTree.prune (tree : PathTree I A) (path : List I)
    (hleaf : ∀ i, tree.node (path ++ [i]) = none) : PathTree I A where
  node := update tree.node path none
  closed := by
    intro path' j hnamed
    have hchild : path' ++ [j] ≠ path := by
      intro heq
      rw [heq, update_self] at hnamed
      cases hnamed
    rw [update_of_ne hchild] at hnamed
    by_cases hself : path' = path
    · rw [hself, hleaf j] at hnamed
      cases hnamed
    · rw [update_of_ne hself]
      exact tree.closed path' j hnamed
  unique := by
    intro p q b hp hq
    have hpne : p ≠ path := by
      rintro rfl
      rw [update_self] at hp
      cases hp
    have hqne : q ≠ path := by
      rintro rfl
      rw [update_self] at hq
      cases hq
    rw [update_of_ne hpne] at hp
    rw [update_of_ne hqne] at hq
    exact tree.unique p q b hp hq

section Extend

variable {tree : PathTree I A} {path : List I} {i : I} {a : A}
  {hparent : (tree.node path).isSome} {hfresh : ¬ tree.Has a}

@[simp] theorem extend_self : (tree.extend path i a hparent hfresh).node (path ++ [i]) = some a :=
  update_self ..

theorem extend_of_ne {path' : List I} (h : path' ≠ path ++ [i]) :
    (tree.extend path i a hparent hfresh).node path' = tree.node path' :=
  update_of_ne h ..

theorem extend_has (hnew : tree.node (path ++ [i]) = none) (b : A) :
    (tree.extend path i a hparent hfresh).Has b ↔ tree.Has b ∨ b = a := by
  constructor
  · rintro ⟨p, hp⟩
    by_cases hpnew : p = path ++ [i]
    · rw [hpnew, extend_self] at hp
      exact .inr (Option.some.inj hp).symm
    · rw [extend_of_ne hpnew] at hp
      exact .inl ⟨p, hp⟩
  · rintro (⟨p, hp⟩ | rfl)
    · have hne : p ≠ path ++ [i] := by
        rintro rfl
        rw [hnew] at hp
        cases hp
      exact ⟨p, (extend_of_ne hne).trans hp⟩
    · exact ⟨_, extend_self⟩

end Extend

section Prune

variable {tree : PathTree I A} {path : List I} {hleaf : ∀ i, tree.node (path ++ [i]) = none}

@[simp] theorem prune_self : (tree.prune path hleaf).node path = none :=
  update_self ..

theorem prune_of_ne {path' : List I} (h : path' ≠ path) :
    (tree.prune path hleaf).node path' = tree.node path' :=
  update_of_ne h ..

theorem prune_has {a : A} (ha : tree.node path = some a) (b : A) :
    (tree.prune path hleaf).Has b ↔ tree.Has b ∧ b ≠ a := by
  constructor
  · rintro ⟨p, hp⟩
    have hne : p ≠ path := by
      rintro rfl
      rw [prune_self] at hp
      cases hp
    rw [prune_of_ne hne] at hp
    refine ⟨⟨p, hp⟩, ?_⟩
    rintro rfl
    exact hne (tree.unique p path b hp ha)
  · rintro ⟨⟨p, hp⟩, hb⟩
    have hne : p ≠ path := by
      rintro rfl
      exact hb (Option.some.inj (hp.symm.trans ha))
    exact ⟨p, (prune_of_ne hne).trans hp⟩

end Prune

end AuraOS.PathTrees
