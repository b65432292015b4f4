/-
  Rounding a quotient
  ===================
  The whole number nearest to a quotient of natural numbers, a half going to the
  even neighbour. **`nearestQuotient_close`**: the result is never more than half
  a unit away; **`nearestQuotient_of_dvd`**: a whole quotient is its own rounding.
-/
namespace SymbolicAlgebra.Decimal

/-- The natural number nearest to `num / den`; of two equally near ones the even one. -/
def nearestQuotient (num den : Nat) : Nat :=
  let below := num / den
  let excess := 2 * (num % den)
  if excess < den then below
  else if den < excess then below + 1
  else if below % 2 = 0 then below else below + 1

theorem nearestQuotient_close (num : Nat) {den : Nat} (positive : 0 < den) :
    2 * num ≤ 2 * (nearestQuotient num den * den) + den ∧
      2 * (nearestQuotient num den * den) ≤ 2 * num + den := by
  have split : den * (num / den) + num % den = num := Nat.div_add_mod num den
  have bound : num % den < den := Nat.mod_lt _ positive
  have commuted : num / den * den = den * (num / den) := Nat.mul_comm _ _
  have next : (num / den + 1) * den = den * (num / den) + den := by
    rw [Nat.add_mul, commuted, Nat.one_mul]
  unfold nearestQuotient
  dsimp only
  split
  · omega
  · split
    · omega
    · split <;> omega

theorem nearestQuotient_of_dvd {num den : Nat} (positive : 0 < den) (whole : den ∣ num) :
    nearestQuotient num den = num / den := by
  have none_left : num % den = 0 := Nat.mod_eq_zero_of_dvd whole
  simp [nearestQuotient, none_left, positive]

end SymbolicAlgebra.Decimal
