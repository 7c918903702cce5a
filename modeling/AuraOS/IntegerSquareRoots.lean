import AuraOS.CheckedWords

namespace AuraOS.Framebuffer

open CheckedWords

/-- The next guess; `none` if the division or the sum panics. -/
def nextGuess (val x0 : Nat) : Option Nat := do
  let quotient ← require (x0 ≠ 0) (val / x0)
  let sum ← checkedAdd 64 x0 quotient
  return sum / 2

/-- The loop of `integer_sqrt`. -/
def newtonLoop (val x0 x1 : Nat) : Option Nat :=
  if x1 < x0 then do
    let next ← nextGuess val x1
    newtonLoop val x1 next
  else some x0
termination_by x0

def integerSqrt (val : Nat) : Option Nat :=
  if val = 0 then some 0
  else if val / 2 = 0 then some 1
  else do
    let x1 ← nextGuess val (val / 2)
    newtonLoop val (val / 2) x1

section Newton

variable {val x0 : Nat}

theorem nextGuess_eq (hval : val < 2 ^ 64) (hpos : 0 < x0) (hle : x0 ≤ val / 2)
    (hroot : val < (x0 + 1) * (x0 + 1)) : nextGuess val x0 = some ((x0 + val / x0) / 2) := by
  have hsum : x0 + val / x0 < 2 ^ 64 := by
    rcases Nat.lt_or_ge x0 2 with hsmall | hlarge
    · obtain rfl : x0 = 1 := by omega
      omega
    · have hquotient : val / x0 ≤ val / 2 := Nat.div_le_div_left hlarge (by decide)
      omega
  rw [nextGuess, require_of (by omega), Option.bind_eq_bind, Option.bind_some,
    checkedAdd_of_lt hsum]
  rfl

theorem lt_nextGuess_sq (val : Nat) (hpos : 0 < x0) :
    val < ((x0 + val / x0) / 2 + 1) * ((x0 + val / x0) / 2 + 1) := by
  have hval : val < x0 * (val / x0 + 1) := Nat.lt_mul_div_succ val hpos
  have hmean : x0 + (val / x0 + 1) ≤ 2 * ((x0 + val / x0) / 2 + 1) := by omega
  generalize val / x0 = quotient at *
  nlinarith [sq_nonneg ((x0 : ℤ) - (quotient + 1))]

theorem newtonLoop_eq (hval : val < 2 ^ 64) (hpos : 0 < x0) (hle : x0 ≤ val / 2)
    (hroot : val < (x0 + 1) * (x0 + 1)) :
    newtonLoop val x0 ((x0 + val / x0) / 2) = some (Nat.sqrt val) := by
  induction x0 using Nat.strong_induction_on with
  | h x0 ih =>
    rw [newtonLoop]
    split
    · rename_i hlt
      have hnext := lt_nextGuess_sq val hpos
      have hnextPos : 0 < (x0 + val / x0) / 2 := by
        by_contra hzero
        rw [Nat.eq_zero_of_not_pos hzero] at hnext
        omega
      rw [nextGuess_eq hval hnextPos (by omega) hnext]
      exact ih _ hlt hnextPos (by omega) hnext
    · rename_i hstop
      refine congrArg some (Nat.eq_sqrt.mpr ⟨?_, hroot⟩)
      exact (Nat.le_div_iff_mul_le hpos).mp (by omega)

theorem integerSqrt_eq (hval : val < 2 ^ 64) : integerSqrt val = some (Nat.sqrt val) := by
  rw [integerSqrt]
  split
  · rename_i hzero
    rw [hzero, Nat.sqrt_zero]
  split
  · rename_i hhalf
    obtain rfl : val = 1 := by omega
    rw [Nat.sqrt_one]
  · have hpos : 0 < val / 2 := by omega
    have hroot : val < (val / 2 + 1) * (val / 2 + 1) := by
      have hhalf : val ≤ 2 * (val / 2) + 1 := by omega
      nlinarith
    rw [nextGuess_eq hval hpos le_rfl hroot]
    exact newtonLoop_eq hval hpos le_rfl hroot

end Newton

/-- `integer_sqrt` returns the floor of the square root of every word. -/
theorem integerSqrt_floor (val : Nat) (hval : val < 2 ^ 64) :
    ∃ r, integerSqrt val = some r ∧ r * r ≤ val ∧ val < (r + 1) * (r + 1) :=
  ⟨Nat.sqrt val, integerSqrt_eq hval, Nat.sqrt_le val, Nat.lt_succ_sqrt val⟩

theorem integerSqrt_floor_max : 2 ^ 64 - 1 < 2 ^ 64 ∧ ∃ r, integerSqrt (2 ^ 64 - 1) = some r ∧
    r * r ≤ 2 ^ 64 - 1 ∧ 2 ^ 64 - 1 < (r + 1) * (r + 1) :=
  ⟨by decide, integerSqrt_floor _ (by decide)⟩

end AuraOS.Framebuffer
