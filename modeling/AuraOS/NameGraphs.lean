import Mathlib

namespace AuraOS.NameGraphs

variable {N L C : Type*}

def Walks (edge : N → L → N → Prop) : N → List L → N → Prop
  | a, [], b => a = b
  | a, l :: rest, b => ∃ c, edge a l c ∧ Walks edge c rest b

structure NameTree (edge : N → L → N → Prop) (root : N) : Prop where
  root : ∀ {a l}, ¬ edge a l root
  single : ∀ {a b l m c}, edge a l c → edge b m c → a = b ∧ l = m
  functional : ∀ {a l b c}, edge a l b → edge a l c → b = c

def addLeaf (edge : N → L → N → Prop) (dir : N) (name : L) (new : N) : N → L → N → Prop :=
  fun a l b => edge a l b ∨ a = dir ∧ l = name ∧ b = new

def cut (edge : N → L → N → Prop) (old : N) : N → L → N → Prop :=
  fun a l b => edge a l b ∧ a ≠ old ∧ b ≠ old

section Walks

variable {edge : N → L → N → Prop} {root a b c : N} {u v w : List L} {l : L}

theorem walks_append : Walks edge a (u ++ v) b ↔ ∃ c, Walks edge a u c ∧ Walks edge c v b := by
  induction u generalizing a with
  | nil => exact ⟨fun h => ⟨a, rfl, h⟩, fun ⟨_, hstart, h⟩ => hstart ▸ h⟩
  | cons m rest ih =>
    rw [List.cons_append, Walks]
    simp only [ih]
    constructor
    · rintro ⟨d, hedge, c, hfront, hback⟩
      exact ⟨c, ⟨d, hedge, hfront⟩, hback⟩
    · rintro ⟨c, ⟨d, hedge, hfront⟩, hback⟩
      exact ⟨d, hedge, c, hfront, hback⟩

theorem walks_concat : Walks edge a (u ++ [l]) b ↔ ∃ c, Walks edge a u c ∧ edge c l b := by
  rw [walks_append]
  constructor
  · rintro ⟨c, hwalk, _, hedge, rfl⟩
    exact ⟨c, hwalk, hedge⟩
  · rintro ⟨c, hwalk, hedge⟩
    exact ⟨c, hwalk, b, hedge, rfl⟩

variable (tree : NameTree edge root)
include tree

theorem NameTree.walks_functional (h : Walks edge a u b) (h' : Walks edge a u c) : b = c := by
  induction u generalizing a with
  | nil => exact h.symm.trans h'
  | cons m rest ih =>
    obtain ⟨d, hedge, hrest⟩ := h
    obtain ⟨d', hedge', hrest'⟩ := h'
    obtain rfl := tree.functional hedge hedge'
    exact ih hrest hrest'

theorem NameTree.way_unique (h : Walks edge root u b) (h' : Walks edge root v b) : u = v := by
  induction u using List.reverseRecOn generalizing b v with
  | nil =>
    obtain rfl : root = b := h
    cases v using List.reverseRecOn with
    | nil => rfl
    | append_singleton v m =>
      obtain ⟨_, _, hedge⟩ := walks_concat.mp h'
      exact absurd hedge tree.root
  | append_singleton u l ih =>
    obtain ⟨c, hwalk, hedge⟩ := walks_concat.mp h
    cases v using List.reverseRecOn with
    | nil =>
      obtain rfl : root = b := h'
      exact absurd hedge tree.root
    | append_singleton v m =>
      obtain ⟨c', hwalk', hedge'⟩ := walks_concat.mp h'
      obtain ⟨rfl, rfl⟩ := tree.single hedge hedge'
      rw [ih hwalk hwalk']

omit tree in
theorem walks_addLeaf {dir new : N} {name : L} (hdir : dir ≠ new) (ha : a ≠ new)
    (hleaf : ∀ l b, ¬ edge new l b) :
    Walks (addLeaf edge dir name new) a u b ↔
      Walks edge a u b ∨ ∃ w, u = w ++ [name] ∧ Walks edge a w dir ∧ b = new := by
  induction u using List.reverseRecOn generalizing b with
  | nil =>
    refine ⟨.inl, fun h => h.elim id ?_⟩
    rintro ⟨w, hnil, _⟩
    exact absurd hnil.symm (by simp)
  | append_singleton u l ih =>
    rw [walks_concat, walks_concat]
    constructor
    · rintro ⟨c, hwalk, hedge⟩
      -- The walk so far does not end in the leaf, which has no edges.
      have hold : Walks edge a u c := by
        refine (ih.mp hwalk).elim id ?_
        rintro ⟨_, _, _, rfl⟩
        rcases hedge with hedge | ⟨rfl, _⟩
        · exact absurd hedge (hleaf l b)
        · exact absurd rfl hdir
      rcases hedge with hedge | ⟨rfl, rfl, rfl⟩
      · exact .inl ⟨c, hold, hedge⟩
      · exact .inr ⟨u, rfl, hold, rfl⟩
    · rintro (⟨c, hwalk, hedge⟩ | ⟨w, heq, hwalk, rfl⟩)
      · exact ⟨c, ih.mpr (.inl hwalk), .inl hedge⟩
      · obtain ⟨rfl, hl⟩ := List.append_inj' heq rfl
        exact ⟨dir, ih.mpr (.inl hwalk), .inr ⟨rfl, (List.cons.inj hl).1, rfl⟩⟩

theorem NameTree.walks_cut {old : N} (hold : Walks edge root w old) (hne : old ≠ root) :
    Walks (cut edge old) root u b ↔ Walks edge root u b ∧ ¬ w <+: u := by
  induction u using List.reverseRecOn generalizing b with
  | nil =>
    refine ⟨fun h => ⟨h, fun hpre => hne ?_⟩, And.left⟩
    rw [List.prefix_nil.mp hpre] at hold
    exact hold.symm
  | append_singleton u l ih =>
    rw [walks_concat, walks_concat]
    constructor
    · rintro ⟨c, hwalk, hedge, _, hb⟩
      obtain ⟨hwalk', hpre⟩ := ih.mp hwalk
      refine ⟨⟨c, hwalk', hedge⟩, fun hpre' => ?_⟩
      rcases List.prefix_concat_iff.mp hpre' with rfl | hpre'
      · exact hb (tree.walks_functional (walks_concat.mpr ⟨c, hwalk', hedge⟩) hold)
      · exact hpre hpre'
    · rintro ⟨⟨c, hwalk, hedge⟩, hpre⟩
      have hpre' : ¬ w <+: u := fun h => hpre (h.trans (List.prefix_append u [l]))
      refine ⟨c, ih.mpr ⟨hwalk, hpre'⟩, hedge, ?_, ?_⟩
      · rintro rfl
        rw [tree.way_unique hold hwalk] at hpre'
        exact hpre' (List.prefix_refl u)
      · rintro rfl
        rw [tree.way_unique hold (walks_concat.mpr ⟨c, hwalk, hedge⟩)] at hpre
        exact hpre (List.prefix_refl _)

theorem NameTree.not_prefix_of_leaf {old : N} (hold : Walks edge root w old)
    (hleaf : ∀ l b, ¬ edge old l b) (h : Walks edge root u b) (hb : b ≠ old) : ¬ w <+: u := by
  rintro ⟨v, rfl⟩
  obtain ⟨c, hwalk, hrest⟩ := walks_append.mp h
  obtain rfl := tree.walks_functional hold hwalk
  cases v with
  | nil => exact hb hrest.symm
  | cons l v =>
    obtain ⟨d, hedge, _⟩ := hrest
    exact hleaf l d hedge

end Walks

end AuraOS.NameGraphs
