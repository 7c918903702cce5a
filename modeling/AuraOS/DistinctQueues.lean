import Mathlib

namespace AuraOS.DistinctQueues

open Function

variable {I K : Type*}

structure Distinct (queue : I → List K) (pool : List K) : Prop where
  queue_nodup : ∀ i, (queue i).Nodup
  queue_unique : ∀ i j k, k ∈ queue i → k ∈ queue j → i = j
  pool_nodup : pool.Nodup
  pool_disjoint : ∀ i k, k ∈ queue i → k ∉ pool

variable {queue : I → List K} {pool : List K}

theorem position_unique {l : List K} (h : l.Nodup) {a b : Nat} {k : K}
    (ha : l[a]? = some k) (hb : l[b]? = some k) : a = b := by
  obtain ⟨hlt, hget⟩ := List.getElem?_eq_some_iff.mp ha
  obtain ⟨hlt', hget'⟩ := List.getElem?_eq_some_iff.mp hb
  exact (List.Nodup.getElem_inj_iff h).mp (hget.trans hget'.symm)

theorem mem_iff_of_getElem? {l : List K} {a : Nat} {k x : K} (h : l[a]? = some k) :
    x ∈ l ↔ x = k ∨ x ∈ l.eraseIdx a := by
  obtain ⟨hlt, rfl⟩ := List.getElem?_eq_some_iff.mp h
  rw [← (List.getElem_cons_eraseIdx_perm hlt).mem_iff, List.mem_cons]

theorem not_mem_eraseIdx {l : List K} (h : l.Nodup) {a : Nat} {k : K}
    (ha : l[a]? = some k) : k ∉ l.eraseIdx a := by
  intro hmem
  obtain ⟨b, hb⟩ := List.mem_iff_getElem?.mp hmem
  rw [List.getElem?_eraseIdx] at hb
  split at hb
  · have heq := position_unique h ha hb
    omega
  · have heq := position_unique h ha hb
    omega

/-- A list whose elements one field tells apart, told apart by another that
determines the first. -/
theorem nodup_map_of_determines {α L : Type*} {f : α → K} {g : α → L} {l : List α}
    (h : (l.map f).Nodup)
    (hdet : ∀ a ∈ l, ∀ b ∈ l, g a = g b → f a = f b) : (l.map g).Nodup :=
  (List.Nodup.of_map f h).map_on fun a ha b hb heq =>
    List.inj_on_of_nodup_map h ha hb (hdet a ha b hb heq)

variable [DecidableEq I]

variable (h : Distinct queue pool)
include h

theorem Distinct.shrink (i : I) {l : List K}
    (hsub : l.Sublist (queue i)) : Distinct (update queue i l) pool := by
  have hmem : ∀ j k, k ∈ update queue i l j → k ∈ queue j := by
    intro j k hk
    by_cases hj : j = i
    · subst hj
      rw [update_self] at hk
      exact hsub.subset hk
    · rwa [update_of_ne hj] at hk
  refine ⟨?_, fun a b k ha hb => h.queue_unique a b k (hmem a k ha) (hmem b k hb), h.pool_nodup,
    fun a k ha => h.pool_disjoint a k (hmem a k ha)⟩
  intro j
  by_cases hj : j = i
  · subst hj
    rw [update_self]
    exact hsub.nodup (h.queue_nodup j)
  · rw [update_of_ne hj]
    exact h.queue_nodup j

theorem Distinct.push (i : I) {k : K} (hqueue : ∀ j, k ∉ queue j)
    (hpool : k ∉ pool) : Distinct (update queue i (queue i ++ [k])) pool := by
  have hmem : ∀ j x, x ∈ update queue i (queue i ++ [k]) j → x ∈ queue j ∨ x = k ∧ j = i := by
    intro j x hx
    by_cases hj : j = i
    · subst hj
      rw [update_self, List.mem_append, List.mem_singleton] at hx
      exact hx.imp_right fun hx => ⟨hx, rfl⟩
    · rw [update_of_ne hj] at hx
      exact .inl hx
  refine ⟨?_, ?_, h.pool_nodup, ?_⟩
  · intro j
    by_cases hj : j = i
    · subst hj
      simpa using List.Nodup.concat (hqueue j) (h.queue_nodup j)
    · rw [update_of_ne hj]
      exact h.queue_nodup j
  · intro a b x ha hb
    rcases hmem a x ha with hold | ⟨hx, hai⟩
    · rcases hmem b x hb with hold' | ⟨hx, -⟩
      · exact h.queue_unique a b x hold hold'
      · exact absurd (hx ▸ hold) (hqueue a)
    · rcases hmem b x hb with hold' | ⟨-, hbi⟩
      · exact absurd (hx ▸ hold') (hqueue b)
      · exact hai.trans hbi.symm
  · intro a x ha
    rcases hmem a x ha with ha | ⟨rfl, -⟩
    · exact h.pool_disjoint a x ha
    · exact hpool

omit [DecidableEq I] in
theorem Distinct.pool_push {k : K} (hqueue : ∀ j, k ∉ queue j)
    (hpool : k ∉ pool) : Distinct queue (pool ++ [k]) := by
  refine ⟨h.queue_nodup, h.queue_unique, by simpa using List.Nodup.concat hpool h.pool_nodup, ?_⟩
  intro i x hx hmem
  rcases List.mem_append.mp hmem with hmem | hmem
  · exact h.pool_disjoint i x hx hmem
  · rw [List.mem_singleton] at hmem
    exact hqueue i (hmem ▸ hx)

omit [DecidableEq I] in
theorem Distinct.pool_shrink {l : List K} (hsub : l.Sublist pool) : Distinct queue l :=
  ⟨h.queue_nodup, h.queue_unique, hsub.nodup h.pool_nodup,
    fun i k hk hmem => h.pool_disjoint i k hk (hsub.subset hmem)⟩

end AuraOS.DistinctQueues
