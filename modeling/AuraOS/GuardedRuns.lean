import Mathlib

/-!
Runs of deterministic state machines.  A run applies a list of operations in
order; a guarded run additionally meets a condition, evaluated in the state
before each operation.
-/

namespace AuraOS.GuardedRuns

variable {S A : Type*}

def Guarded (step : S → A → S) (guard : S → A → Prop) : S → List A → Prop
  | _, [] => True
  | s, a :: rest => guard s a ∧ Guarded step guard (step s a) rest

instance instDecidableGuarded (step : S → A → S)
    (guard : S → A → Prop) [∀ s, DecidablePred (guard s)] :
    (s : S) → (ops : List A) → Decidable (Guarded step guard s ops)
  | _, [] => isTrue trivial
  | s, a :: rest =>
    have := instDecidableGuarded step guard (step s a) rest
    inferInstanceAs (Decidable (guard s a ∧ Guarded step guard (step s a) rest))

theorem guarded_append {step : S → A → S} {guard : S → A → Prop} {s : S} {ops ops' : List A} :
    Guarded step guard s (ops ++ ops') ↔
      Guarded step guard s ops ∧ Guarded step guard (ops.foldl step s) ops' := by
  induction ops generalizing s with
  | nil => simp [Guarded]
  | cons b rest ih =>
    rw [List.cons_append, Guarded, Guarded, ih, List.foldl_cons, and_assoc]

theorem guarded_concat {step : S → A → S} {guard : S → A → Prop} {s : S} {ops : List A} {a : A} :
    Guarded step guard s (ops ++ [a]) ↔ Guarded step guard s ops ∧ guard (ops.foldl step s) a := by
  simp [guarded_append, Guarded]

theorem guarded_iff_getElem? {step : S → A → S} {guard : S → A → Prop} {s : S} {ops : List A} :
    Guarded step guard s ops ↔
      ∀ (k : Nat) a, ops[k]? = some a → guard ((ops.take k).foldl step s) a := by
  induction ops generalizing s with
  | nil => simp [Guarded]
  | cons b rest ih =>
    rw [Guarded, ih]
    constructor
    · rintro ⟨hfirst, hrest⟩ k a ha
      cases k with
      | zero =>
        cases ha
        exact hfirst
      | succ k => exact hrest k a (by simpa using ha)
    · intro h
      exact ⟨h 0 b rfl, fun k a ha => h (k + 1) a (by simpa using ha)⟩

theorem guarded_and_of_forall_mem {step : S → A → S} {guard : S → A → Prop} {P : A → Prop} {s : S}
    {ops : List A} (h : ∀ a ∈ ops, P a) (hrun : Guarded step guard s ops) :
    Guarded step (fun s a => P a ∧ guard s a) s ops := by
  induction ops generalizing s with
  | nil => trivial
  | cons a rest ih =>
    exact ⟨⟨h a (.head _), hrun.1⟩, ih (fun b hb => h b (.tail _ hb)) hrun.2⟩

theorem Guarded.and {step : S → A → S} {guard guard' : S → A → Prop} {s : S} {ops : List A}
    (h : Guarded step guard s ops) (h' : Guarded step guard' s ops) :
    Guarded step (fun s a => guard s a ∧ guard' s a) s ops := by
  induction ops generalizing s with
  | nil => trivial
  | cons a rest ih => exact ⟨⟨h.1, h'.1⟩, ih h.2 h'.2⟩

theorem invariant_of_guarded {step : S → A → S} {guard : S → A → Prop} {inv : S → Prop}
    (hstep : ∀ s a, inv s → guard s a → inv (step s a)) {s : S} {ops : List A} (hinit : inv s)
    (hrun : Guarded step guard s ops) : inv (ops.foldl step s) := by
  induction ops generalizing s with
  | nil => exact hinit
  | cons a rest ih => exact ih (hstep s a hinit hrun.1) hrun.2

/-- A guard that an invariant makes exact, for operations from a domain: a run is guarded
exactly if the property holds after each of its prefixes. -/
theorem guarded_iff_of_domain {step : S → A → S} {guard dom : S → A → Prop} {inv good : S → Prop}
    (hstep : ∀ s a, inv s → dom s a → guard s a → inv (step s a)) (hgood : ∀ s, inv s → good s)
    (hexact : ∀ s a, inv s → dom s a → good (step s a) → guard s a)
    {s : S} {ops : List A} (hinit : inv s) (hdom : Guarded step dom s ops) :
    Guarded step guard s ops ↔ ∀ k, good ((ops.take k).foldl step s) := by
  induction ops generalizing s with
  | nil => simpa [Guarded] using hgood s hinit
  | cons a rest ih =>
    constructor
    · rintro ⟨hguard, hrest⟩ k
      cases k with
      | zero => exact hgood s hinit
      | succ k => exact (ih (hstep s a hinit hdom.1 hguard) hdom.2).mp hrest k
    · intro h
      have hguard := hexact s a hinit hdom.1 (by simpa using h 1)
      exact ⟨hguard, (ih (hstep s a hinit hdom.1 hguard) hdom.2).mpr
        fun k => by simpa using h (k + 1)⟩

theorem guarded_true (step : S → A → S) (s : S) (ops : List A) :
    Guarded step (fun _ _ => True) s ops := by
  induction ops generalizing s with
  | nil => trivial
  | cons a rest ih => exact ⟨trivial, ih (step s a)⟩

theorem guarded_iff_forall_take {step : S → A → S} {guard : S → A → Prop} {inv good : S → Prop}
    (hstep : ∀ s a, inv s → guard s a → inv (step s a)) (hgood : ∀ s, inv s → good s)
    (hexact : ∀ s a, inv s → good (step s a) → guard s a) {s : S} {ops : List A} (hinit : inv s) :
    Guarded step guard s ops ↔ ∀ k, good ((ops.take k).foldl step s) :=
  guarded_iff_of_domain (fun s a h _ => hstep s a h) hgood (fun s a h _ => hexact s a h) hinit
    (guarded_true step s ops)

/-- If a step leads to a good state exactly from good states and under the guard, the
last state of a run tells whether the run was guarded. -/
theorem good_and_guarded_iff {step : S → A → S} {guard : S → A → Prop} {inv good : S → Prop}
    (hinv : ∀ s a, inv s → inv (step s a))
    (hstep : ∀ s a, inv s → (good (step s a) ↔ good s ∧ guard s a)) {s : S} {ops : List A}
    (hinit : inv s) : good s ∧ Guarded step guard s ops ↔ good (ops.foldl step s) := by
  induction ops generalizing s with
  | nil => simp [Guarded]
  | cons a rest ih =>
    rw [Guarded, ← and_assoc, ← hstep s a hinit, ih (hinv s a hinit), List.foldl_cons]

theorem invariant_of_foldlM {step : S → A → Option S} {inv : S → Prop}
    (hstep : ∀ s a s', inv s → step s a = some s' → inv s') {s s' : S} {ops : List A}
    (hinit : inv s) (hrun : ops.foldlM step s = some s') : inv s' := by
  induction ops generalizing s with
  | nil =>
    cases hrun
    exact hinit
  | cons a rest ih =>
    obtain ⟨t, hstepped, hrest⟩ := Option.bind_eq_some_iff.mp hrun
    exact ih (hstep s a t hinit hstepped) hrest

theorem foldlM_returns {S A E : Type} {step : S → A → Except E S} {inv : S → Prop}
    (hstep : ∀ s a, inv s → ∃ s', step s a = .ok s' ∧ inv s') {s : S} (ops : List A)
    (hinit : inv s) : ∃ s', ops.foldlM step s = .ok s' ∧ inv s' := by
  induction ops generalizing s with
  | nil => exact ⟨s, rfl, hinit⟩
  | cons a rest ih =>
    obtain ⟨t, hstepped, ht⟩ := hstep s a hinit
    obtain ⟨s', hrest, hs'⟩ := ih ht
    exact ⟨s', by rw [List.foldlM_cons, hstepped]; exact hrest, hs'⟩

end AuraOS.GuardedRuns
