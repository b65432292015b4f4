/-
  Equality of expressions
  =======================
  Two expressions are the same when they have the same shape, the order of the
  factors of a term and of the terms of a sum aside. Factors that are certainly one
  do not count.

  The sign of a variable takes no part in the comparison of two variables, so it is
  compared apart wherever a variable stands inside a factor or a call.
-/
import SymbolicAlgebra.Node.Predicate
import SymbolicAlgebra.Tally

namespace SymbolicAlgebra

variable {α : Type} [Scalar α]

namespace Node

mutual

/-- Whether two expressions are the same up to the order of factors and terms. -/
def same : Node α → Node α → Bool
  | .number x, .number y => x == y
  | .constant c s, .constant d t => c == d && s == t
  | .var v _, .var w _ => v == w
  | .power ⟨base, exponent⟩, .power g =>
    base.same g.base && base.isNegative == g.base.isNegative
      && (exponent.same g.exponent && exponent.isNegative == g.exponent.isNegative)
  | .product ⟨n, d, fs, gs⟩, .product t =>
    n == t.numerator && d == t.denominator
      && sameFactors fs t.realFactors && sameFactors gs t.realDivisors
  | .sum ts, .sum us => sameTerms ts us
  | .unary f x, .unary g y => f == g && (x.same y && x.isNegative == y.isNegative)
  | .binary f x y, .binary g z w =>
    f == g && (x.same z && x.isNegative == z.isNegative)
      && (y.same w && y.isNegative == w.isNegative)
  | _, _ => false

/-- Whether the real factors of the first list are those of the second, which holds real
factors only. -/
def sameFactors : List (Factor (Node α)) → List (Factor (Node α)) → Bool
  | [], gs => gs.isEmpty
  | ⟨base, exponent⟩ :: fs, gs =>
    if exponent.isZero || base.isOne then sameFactors fs gs
    else
      match Tally.takeOut? (fun g => base.same g.base && base.isNegative == g.base.isNegative
          && (exponent.same g.exponent && exponent.isNegative == g.exponent.isNegative)) gs with
      | some rest => sameFactors fs rest
      | none => false

/-- Whether the terms of the first list are those of the second. -/
def sameTerms : List (Term α (Node α)) → List (Term α (Node α)) → Bool
  | [], us => us.isEmpty
  | ⟨n, d, fs, gs⟩ :: ts, us =>
    match Tally.takeOut? (fun u => n == u.numerator && d == u.denominator
        && sameFactors fs u.realFactors && sameFactors gs u.realDivisors) us with
    | some rest => sameTerms ts rest
    | none => false

end

/-- Whether two expressions are the same and carry the same sign. -/
def sameSigned (x y : Node α) : Bool := x.same y && x.isNegative == y.isNegative

end Node

/-- Whether two factors are the same. -/
def Factor.same (f g : Factor (Node α)) : Bool := (Node.power f).same (.power g)

theorem Factor.same_eq (f g : Factor (Node α)) :
    f.same g = (f.base.sameSigned g.base && f.exponent.sameSigned g.exponent) := by
  obtain ⟨base, exponent⟩ := f
  rw [Factor.same, Node.same]
  rfl

/-- Whether two terms have the same factors above and below the bar, coefficients aside. -/
def Term.isLike (t u : Term α (Node α)) : Bool :=
  Node.sameFactors t.factors u.realFactors && Node.sameFactors t.divisors u.realDivisors

end SymbolicAlgebra
