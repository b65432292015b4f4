/-
  Decimal fractions
  =================
  A non-negative decimal fraction is a coefficient and a power of ten. The module
  also finds the decimal magnitude of a quotient (`magnitude`) and drops the
  trailing zeros of a fraction without changing its value (**`value_reduced`**).
-/
namespace SymbolicAlgebra

/-- The number `coefficient · 10 ^ exponent`. -/
structure Decimal where
  coefficient : Nat
  exponent : Int
deriving DecidableEq, Repr

namespace Decimal

-- a power of whole numbers is that of the core library, whatever else has powers
attribute [local instance (1100)] instPowNat

/-- How many digits a positive number has. -/
def digitCount (n : Nat) : Nat := (Nat.toDigits 10 n).length

/-- The power of ten of the first digit of `num / den`, for a positive quotient. -/
def magnitude (num den : Nat) : Int :=
  if den ≤ num then Int.ofNat (digitCount (num / den)) - 1
  else -Int.ofNat (digitCount ((den - 1) / num))

/-- The coefficient and exponent left when trailing zeros move into the exponent. -/
def strippedZeros (coefficient : Nat) (exponent : Int) : Nat × Int :=
  if coefficient ≠ 0 ∧ coefficient % 10 = 0 then
    strippedZeros (coefficient / 10) (exponent + 1)
  else (coefficient, exponent)
termination_by coefficient
decreasing_by omega

/-- The same number without trailing zeros in its coefficient. -/
def reduced (d : Decimal) : Decimal :=
  let stripped := strippedZeros d.coefficient d.exponent
  ⟨stripped.1, stripped.2⟩

/-- How many digits stand after the point. -/
def places (d : Decimal) : Nat := (-d.reduced.exponent).toNat

theorem strippedZeros_spec (c : Nat) (e : Int) :
    ∃ k : Nat, (strippedZeros c e).1 * 10 ^ k = c ∧ (strippedZeros c e).2 = e + k := by
  fun_induction strippedZeros c e with
  | case1 c e h ih =>
    obtain ⟨k, coefficient, exponent⟩ := ih
    refine ⟨k + 1, ?_, ?_⟩
    · rw [Nat.pow_succ, ← Nat.mul_assoc, coefficient]
      omega
    · rw [exponent]
      push_cast
      omega
  | case2 c e h => exact ⟨0, by simp, by simp⟩

/-- Reducing moves `k` zeros of the coefficient into the exponent, for some `k`. -/
theorem value_reduced (d : Decimal) :
    ∃ k : Nat, d.reduced.coefficient * 10 ^ k = d.coefficient ∧ d.reduced.exponent = d.exponent + k :=
  strippedZeros_spec d.coefficient d.exponent

end Decimal

end SymbolicAlgebra
