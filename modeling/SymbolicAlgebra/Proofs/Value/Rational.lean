/-
  Rational numbers
  ================
  The rational numbers are exact scalars. Functions and constants without a rational
  value are zero here; a fraction whose parts are not whole is left as it is.
-/
import Mathlib.Data.Rat.Floor
import SymbolicAlgebra.Proofs.Value.Exact

namespace SymbolicAlgebra.Rational

/-- The whole number next to the rational one on the side of zero. -/
def truncated (x : ℚ) : ℤ := if 0 ≤ x then ⌊x⌋ else ⌈x⌉

/-- The value of a function of one argument, zero where it is not rational. -/
def unary : Unary → ℚ → ℚ
  | .abs => fun x => |x|
  | .floor => fun x => ⌊x⌋
  | .ceil => fun x => ⌈x⌉
  | _ => fun _ => 0

/-- The value of a function of two arguments. -/
def binary : Binary → ℚ → ℚ → ℚ
  | .gcf => fun x y => Int.gcd x.num y.num
  | .lcm => fun x y => Int.lcm x.num y.num
  | .max => max
  | .min => min
  | .remainder => fun x y => x - y * truncated (x / y)

instance : FieldScalar ℚ where
  toField := inferInstance
  beq x y := decide (x = y)
  lt x y := decide (x < y)
  isFinite _ := true
  isWhole x := x.den == 1
  toInt x := x.num
  ofInt z := z
  ofDecimal d := d.coefficient * 10 ^ d.exponent
  places x := if x.den = 1 then 0 else Scalar.maxPlaces
  nearestWhole x := some (round x)
  power b x := if x.den = 1 then b ^ x.num else 0
  undefined := 0
  constant _ := 0
  unary := unary
  binary := binary
  text x := toString x
  zero_beq_zero := by decide
  eq_of_beq := by simp
  rfl := by simp

instance : ExactScalar ℚ where
  isWhole_iff x := by
    constructor
    · intro whole
      exact ⟨x.num, ((Rat.den_eq_one_iff x).1 (eq_of_beq whole)).symm⟩
    · rintro ⟨z, rfl⟩
      exact beq_iff_eq.2 (Rat.den_intCast z)
  toInt_cast z := Rat.num_intCast z
  ofInt_cast _ := rfl
  lt_cast w z := by
    show decide ((w : ℚ) < z) = decide (w < z)
    simp
  power_cast x z _ := by
    show (if (z : ℚ).den = 1 then x ^ (z : ℚ).num else 0) = x ^ z
    rw [if_pos (Rat.den_intCast z), Rat.num_intCast]
  reduceFraction_keeps n d nonzero := by
    unfold Scalar.reduceFraction
    rw [if_neg (by simp [nonzero, Scalar.isFinite])]
    have signed : ∃ m c : ℚ, (if Scalar.lt d 0 = true then (-n, -d) else (n, d)) = (m, c) ∧
        c ≠ 0 ∧ m / c = n / d := by
      split
      · exact ⟨-n, -d, rfl, neg_ne_zero.2 nonzero, neg_div_neg_eq n d⟩
      · exact ⟨n, d, rfl, nonzero, rfl⟩
    obtain ⟨m, c, same, positive, quotient⟩ := signed
    rw [same]
    dsimp only
    have places : ∀ x : ℚ, Scalar.decimalPlaces x = 0 ∨ Scalar.decimalPlaces x = Scalar.maxPlaces := by
      intro x
      show min (if x.den = 1 then 0 else Scalar.maxPlaces) Scalar.maxPlaces = 0 ∨
        min (if x.den = 1 then 0 else Scalar.maxPlaces) Scalar.maxPlaces = Scalar.maxPlaces
      split
      · exact .inl rfl
      · exact .inr rfl
    by_cases large : Scalar.maxPlaces ≤ max (Scalar.decimalPlaces m) (Scalar.decimalPlaces c)
    · rw [if_pos large]
      exact ⟨m, c, rfl, positive, quotient⟩
    · have none : max (Scalar.decimalPlaces m) (Scalar.decimalPlaces c) = 0 := by
        rcases places m with first | first <;> rcases places c with second | second <;>
          simp_all
      obtain ⟨nonzero', quotient'⟩ := FieldScalar.lowestTerms_keeps (fun _ => rfl) m positive
      rw [if_neg large, if_pos none]
      exact ⟨_, _, rfl, nonzero', quotient'.trans quotient⟩

end SymbolicAlgebra.Rational
