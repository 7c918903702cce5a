import Mathlib

namespace AuraOS.CheckedWords

variable {α β : Type} {width a b c : Nat}

def checkedAdd (width a b : Nat) : Option Nat :=
  if a + b < 2 ^ width then some (a + b) else none

def checkedSub (a b : Nat) : Option Nat :=
  if b ≤ a then some (a - b) else none

def checkedMul (width a b : Nat) : Option Nat :=
  if a * b < 2 ^ width then some (a * b) else none

def require (p : Prop) [Decidable p] (value : α) : Option α :=
  if p then some value else none

theorem checkedAdd_of_lt (h : a + b < 2 ^ width) : checkedAdd width a b = some (a + b) :=
  if_pos h

theorem checkedAdd_of_le (h : 2 ^ width ≤ a + b) : checkedAdd width a b = none :=
  if_neg (Nat.not_lt.mpr h)

theorem checkedSub_of_le (h : b ≤ a) : checkedSub a b = some (a - b) :=
  if_pos h

theorem checkedMul_of_lt (h : a * b < 2 ^ width) : checkedMul width a b = some (a * b) :=
  if_pos h

theorem require_of {p : Prop} [Decidable p] (h : p) (value : α) : require p value = some value :=
  if_pos h

theorem mapM_eq_map {read : α → Option β} {value : α → β} (items : List α)
    (h : ∀ item ∈ items, read item = some (value item)) :
    items.mapM read = some (items.map value) := by
  induction items with
  | nil => rfl
  | cons item rest ih =>
    rw [List.mapM_cons, h item (.head _), ih fun other hother => h other (.tail item hother)]
    rfl

end AuraOS.CheckedWords
