import AuraOS.CheckedBytes

namespace AuraOS.OnesComplement

def wordSum : List UInt8 → Nat
  | high :: low :: rest => high.toNat * 256 + low.toNat + wordSum rest
  | [byte] => byte.toNat * 256
  | [] => 0

theorem wordSum_append {front : List UInt8} (back : List UInt8) (h : front.length % 2 = 0) :
    wordSum (front ++ back) = wordSum front + wordSum back := by
  fun_induction wordSum front with
  | case1 high low rest ih =>
    have heven : rest.length % 2 = 0 := by
      grind
    rw [List.cons_append, List.cons_append, wordSum, ih heven]
    omega
  | case2 byte => simp at h
  | case3 => simp

theorem wordSum_le (data : List UInt8) : 2 * wordSum data ≤ 65535 * (data.length + 1) := by
  fun_induction wordSum data with
  | case1 high low rest ih =>
    have hhigh := high.toNat_lt
    have hlow := low.toNat_lt
    grind
  | case2 byte =>
    have hbyte := byte.toNat_lt
    grind
  | case3 => simp

def foldCarry : Nat → Nat → Nat
  | 0, sum => sum
  | rounds + 1, sum =>
    if sum / 65536 ≠ 0 then foldCarry rounds (sum % 65536 + sum / 65536) else sum

theorem foldCarry_two_lt (sum : Nat) (h : sum < 2 ^ 32) : foldCarry 2 sum < 65536 := by
  simp only [foldCarry]
  split
  · split <;> omega
  · omega

theorem foldCarry_mod (rounds sum : Nat) : foldCarry rounds sum % 65535 = sum % 65535 := by
  induction rounds generalizing sum with
  | zero => rfl
  | succ rounds ih =>
    rw [foldCarry]
    split
    · rw [ih]
      omega
    · rfl

theorem foldCarry_pos (rounds sum : Nat) (h : 0 < sum) : 0 < foldCarry rounds sum := by
  induction rounds generalizing sum with
  | zero => exact h
  | succ rounds ih =>
    rw [foldCarry]
    split
    · exact ih _ (by omega)
    · exact h

/-- A sum together with the complement of its folded value stays below the wider word and
folds to all ones. -/
theorem foldCarry_add_complement {sum : Nat} (h : sum < 2 ^ 32) :
    sum + (65535 - foldCarry 2 sum) < 2 ^ 32 ∧
      foldCarry 2 (sum + (65535 - foldCarry 2 sum)) = 65535 := by
  have hbelow : sum + (65535 - foldCarry 2 sum) < 2 ^ 32 := by
    simp only [foldCarry]
    split
    · split <;> omega
    · omega
  have hlt := foldCarry_two_lt sum h
  have hmod := foldCarry_mod 2 sum
  have hlt' := foldCarry_two_lt _ hbelow
  have hmod' := foldCarry_mod 2 (sum + (65535 - foldCarry 2 sum))
  have hzero : foldCarry 2 0 = 0 := rfl
  have hpos : 0 < sum + (65535 - foldCarry 2 sum) := by
    rcases Nat.eq_zero_or_pos sum with rfl | hpos <;> omega
  have hpos' := foldCarry_pos 2 _ hpos
  exact ⟨hbelow, by omega⟩

def endAroundAdd (a b : Nat) : Nat :=
  (a + b) % 65536 + (a + b) / 65536

def onesSum (sum : Nat) : List UInt8 → Nat
  | high :: low :: rest => onesSum (endAroundAdd sum (high.toNat * 256 + low.toNat)) rest
  | [byte] => endAroundAdd sum (byte.toNat * 256)
  | [] => sum

def StandsFor (value sum : Nat) : Prop :=
  value < 65536 ∧ value % 65535 = sum % 65535 ∧ (value = 0 ↔ sum = 0)

theorem StandsFor.add {value sum word : Nat} (h : StandsFor value sum) (hword : word < 65536) :
    StandsFor (endAroundAdd value word) (sum + word) := by
  obtain ⟨hlt, hmod, hzero⟩ := h
  refine ⟨?_, ?_, ?_⟩ <;> rw [endAroundAdd] <;> omega

theorem onesSum_standsFor {value sum : Nat} (data : List UInt8) (h : StandsFor value sum) :
    StandsFor (onesSum value data) (sum + wordSum data) := by
  fun_induction onesSum value data generalizing sum with
  | case1 value high low rest ih =>
    have hhigh := high.toNat_lt
    have hlow := low.toNat_lt
    rw [wordSum, ← Nat.add_assoc]
    exact ih (h.add (by omega))
  | case2 value byte =>
    have hbyte := byte.toNat_lt
    exact h.add (by omega)
  | case3 value => exact h

theorem foldCarry_eq_onesSum {data : List UInt8} (h : wordSum data < 2 ^ 32) :
    foldCarry 2 (wordSum data) = onesSum 0 data := by
  obtain ⟨hlt, hmod, hzero⟩ := onesSum_standsFor data (show StandsFor 0 0 by simp [StandsFor])
  have hlt' := foldCarry_two_lt _ h
  have hmod' := foldCarry_mod 2 (wordSum data)
  rcases Nat.eq_zero_or_pos (wordSum data) with hsum | hsum
  · rw [hzero.mpr (by omega), hsum]
    rfl
  · have hpos := foldCarry_pos 2 _ hsum
    omega

end AuraOS.OnesComplement
