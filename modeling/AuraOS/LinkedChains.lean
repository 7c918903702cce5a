import Mathlib

/-!
Chains in a table of links.  Each element of a chain is where the link of the one before
it leads, and the link of the last element leads to the stop.  A loop along the links ends
unless it comes back to an element.
-/

namespace AuraOS.LinkedChains

variable {α : Type*}

def Follows (next : α → α) (stop : α) : α → List α → Prop
  | start, [] => start = stop
  | start, x :: rest => start = x ∧ Follows next stop (next x) rest

section Follows

variable {next next' : α → α} {stop stop' start : α} {chain chain' : List α}

variable (h : Follows next stop start chain)
include h

theorem Follows.congr (hnext : ∀ x ∈ chain, next' x = next x) : Follows next' stop start chain := by
  induction chain generalizing start with
  | nil => exact h
  | cons x rest ih =>
    refine ⟨h.1, ?_⟩
    rw [hnext x (.head _)]
    exact ih h.2 fun y hy => hnext y (.tail x hy)

omit h in
theorem follows_append {front back : List α} :
    Follows next stop start (front ++ back) ↔
      ∃ middle, Follows next middle start front ∧ Follows next stop middle back := by
  induction front generalizing start with
  | nil => exact ⟨fun h => ⟨start, rfl, h⟩, fun ⟨middle, hstart, h⟩ => hstart ▸ h⟩
  | cons x rest ih =>
    rw [List.cons_append, Follows, ih]
    constructor
    · rintro ⟨rfl, middle, hfront, hback⟩
      exact ⟨middle, ⟨rfl, hfront⟩, hback⟩
    · rintro ⟨middle, ⟨rfl, hfront⟩, hback⟩
      exact ⟨rfl, middle, hfront, hback⟩

theorem Follows.unique (h' : Follows next stop' start chain')
    (hstop : stop ∉ chain') (hstop' : stop' ∉ chain) : chain = chain' := by
  induction chain generalizing start chain' with
  | nil =>
    cases chain' with
    | nil => rfl
    | cons y rest =>
      obtain rfl : start = stop := h
      exact absurd (h'.1 ▸ (.head _)) hstop
  | cons x rest ih =>
    cases chain' with
    | nil =>
      obtain rfl : start = stop' := h'
      exact absurd (h.1 ▸ (.head _)) hstop'
    | cons y rest' =>
      obtain ⟨rfl, hrest⟩ := h
      obtain ⟨rfl, hrest'⟩ := h'
      rw [ih hrest hrest' (List.not_mem_of_not_mem_cons hstop)
        (List.not_mem_of_not_mem_cons hstop')]

theorem Follows.nodup (hstop : stop ∉ chain) : chain.Nodup := by
  induction chain generalizing start with
  | nil => exact List.nodup_nil
  | cons x rest ih =>
    refine List.nodup_cons.mpr ⟨fun hx => ?_, ih h.2 (List.not_mem_of_not_mem_cons hstop)⟩
    obtain ⟨front, back, rfl⟩ := List.append_of_mem hx
    -- The chain from the second visit on is the chain from the first visit on.
    have hstopBack : stop ∉ x :: back := fun hback =>
      hstop (.tail x (List.mem_append_right front hback))
    obtain ⟨middle, _, hmiddle⟩ := follows_append.mp h.2
    have hwhole : Follows next stop x (x :: (front ++ x :: back)) := ⟨rfl, h.2⟩
    have hrest : Follows next stop x (x :: back) := ⟨rfl, hmiddle.2⟩
    have hsame := congrArg List.length (hwhole.unique hrest hstopBack hstop)
    grind

theorem Follows.start_mem (hne : chain ≠ []) : start ∈ chain := by
  cases chain with
  | nil => exact absurd rfl hne
  | cons x rest => exact h.1 ▸ (.head _)

theorem Follows.next_mem {x : α} (hx : x ∈ chain) : next x ∈ chain ∨ next x = stop := by
  obtain ⟨front, back, rfl⟩ := List.append_of_mem hx
  obtain ⟨middle, _, hmiddle⟩ := follows_append.mp h
  cases back with
  | nil => exact .inr hmiddle.2
  | cons y back =>
    refine .inl (List.mem_append_right front (.tail x ?_))
    rw [hmiddle.2.1]
    exact .head _

variable [DecidableEq α]

theorem Follows.extend (hstop : stop ∉ chain) (hne : chain ≠ []) {x : α} (hx : x ∉ chain) :
    Follows (Function.update (Function.update next x stop) (chain.getLast hne) x) stop start
      (chain ++ [x]) := by
  have hnodup := h.nodup hstop
  have hlast := List.getLast_mem hne
  have hchain := List.dropLast_append_getLast hne
  have hxlast : x ≠ chain.getLast hne := fun heq => hx (heq ▸ hlast)
  generalize chain.getLast hne = last at hlast hchain hxlast ⊢
  rw [← hchain] at h hnodup hx ⊢
  obtain ⟨middle, hfront, rfl, _⟩ := follows_append.mp h
  rw [List.append_assoc]
  refine follows_append.mpr ⟨middle, hfront.congr fun y hy => ?_, rfl, ?_, ?_⟩
  · have hymiddle : y ≠ middle := fun heq =>
      (List.nodup_append.mp hnodup).2.2 y hy middle List.mem_cons_self heq
    have hyx : y ≠ x := fun heq => hx (List.mem_append_left _ (heq ▸ hy))
    rw [Function.update_of_ne hymiddle, Function.update_of_ne hyx]
  · rw [Function.update_self]
  · rw [Follows, Function.update_of_ne hxlast, Function.update_self]

end Follows

def walk (step : α → Option α) : Nat → α → Option α
  | 0, x => some x
  | rounds + 1, x => (step x).bind (walk step rounds)

def Steps (step : α → Option α) (x y : α) : Prop := step x = some y

def ComesBack (step : α → Option α) (start : α) : Prop :=
  ∃ x, Relation.ReflTransGen (Steps step) start x ∧ Relation.TransGen (Steps step) x x

section Loops

open Relation

variable {step : α → Option α} {start x y : α}

theorem reflTransGen_of_walk {rounds : Nat} (h : walk step rounds start = some x) :
    ReflTransGen (Steps step) start x := by
  induction rounds generalizing start with
  | zero =>
    cases h
    exact .refl
  | succ rounds ih =>
    obtain ⟨y, hstep, hrest⟩ := Option.bind_eq_some_iff.mp h
    exact (ih hrest).head hstep

theorem walk_add (step : α → Option α) (m n : Nat) (x : α) :
    walk step (m + n) x = (walk step m x).bind (walk step n) := by
  induction m generalizing x with
  | zero => rw [Nat.zero_add]; rfl
  | succ m ih =>
    rw [Nat.succ_add, walk, walk, Option.bind_assoc]
    exact congrArg (Option.bind (step x)) (funext ih)

theorem walk_isSome_of_cycle (hcycle : TransGen (Steps step) y y) (h : TransGen (Steps step) x y)
    (rounds : Nat) : (walk step rounds x).isSome = true := by
  induction rounds generalizing x with
  | zero => rfl
  | succ rounds ih =>
    obtain ⟨z, hz, hrest⟩ := TransGen.head'_iff.mp h
    rw [walk, hz, Option.bind_some]
    rcases reflTransGen_iff_eq_or_transGen.mp hrest with rfl | hrest
    · exact ih hcycle
    · exact ih hrest

theorem walk_isSome_of_comesBack (h : ComesBack step start) (rounds : Nat) :
    (walk step rounds start).isSome = true := by
  obtain ⟨x, hreach, hcycle⟩ := h
  exact walk_isSome_of_cycle hcycle (TransGen.trans_right hreach hcycle) rounds

theorem comesBack_of_walk {step : Nat → Option Nat} {start bound rounds : Nat}
    (hbound : ∀ x, (step x).isSome = true → x < bound) (hrounds : bound < rounds)
    (h : (walk step rounds start).isSome = true) : ComesBack step start := by
  have hwalk (i : Nat) (hi : i < rounds) : ∃ x, walk step i start = some x ∧ x < bound := by
    obtain ⟨j, rfl⟩ := Nat.exists_eq_add_of_lt hi
    rw [Nat.add_assoc, walk_add] at h
    obtain ⟨last, hlast⟩ := Option.isSome_iff_exists.mp h
    obtain ⟨x, hx, hrest⟩ := Option.bind_eq_some_iff.mp hlast
    obtain ⟨z, hz, _⟩ := Option.bind_eq_some_iff.mp hrest
    exact ⟨x, hx, hbound x (by rw [hz]; rfl)⟩
  choose! visit hvisit hlt using hwalk
  obtain ⟨i, j, hne, heq⟩ := Fintype.exists_ne_map_eq_of_card_lt
    (fun i : Fin rounds => (⟨visit i, hlt i i.isLt⟩ : Fin bound)) (by simpa using hrounds)
  -- The loop goes from the earlier visit to the later one.
  have hback (i j : Fin rounds) (hij : i < j) (heq : visit i = visit j) : ComesBack step start := by
    have hj := hvisit j j.isLt
    obtain ⟨k, hk⟩ := Nat.exists_eq_add_of_lt hij
    rw [hk, Nat.add_assoc, walk_add, hvisit i i.isLt, Option.bind_some] at hj
    obtain ⟨z, hz, hrest⟩ := Option.bind_eq_some_iff.mp hj
    rw [← Nat.add_assoc, ← hk, ← heq] at hrest
    exact ⟨visit i, reflTransGen_of_walk (hvisit i i.isLt),
      TransGen.head' hz (reflTransGen_of_walk hrest)⟩
  have hvisits := congrArg Fin.val heq
  rcases lt_or_gt_of_ne hne with hij | hji
  · exact hback i j hij hvisits
  · exact hback j i hji hvisits.symm

end Loops

end AuraOS.LinkedChains
