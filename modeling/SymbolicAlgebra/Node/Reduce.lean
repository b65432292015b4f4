/-
  Reducing
  ========
  The plainest node of an expression: a power of zero or one, a term without factors
  and a sum of one term give way to what they hold. Nothing is computed beyond what
  building terms and sums does anyway.

  A term that has come down to one factor reduces that factor once more, so the
  recursion is not on the tree itself; it is bounded by the height of the tree.
-/
import SymbolicAlgebra.Node.Sum
import SymbolicAlgebra.Node.Measure

namespace SymbolicAlgebra

variable {α : Type} [Scalar α]

/-- The base raised to the exponent; a whole power of a whole power is one power. -/
def Factor.raised (base exponent : Node α) : Factor (Node α) :=
  match base, exponent with
  | .power ⟨inner, .number x⟩, .number y =>
    if Scalar.isWhole x && Scalar.isWhole y then ⟨inner, Node.ofValue (x * y)⟩ else ⟨base, exponent⟩
  | _, _ => ⟨base, exponent⟩

namespace Node

/-- Reduces a factor, given how its base and its exponent reduce. -/
def reduceFactor (reduce : Node α → Node α) (f : Factor (Node α)) : Node α :=
  let base := reduce f.base
  match reduce f.exponent with
  | .number x =>
    if x == 0 then .number 1
    else if x == 1 then base
    else .power (Factor.raised base (.number x))
  | exponent => .power (Factor.raised base exponent)

/-- Reduces a term, given how bases and exponents reduce. -/
def reduceTerm (reduce : Node α → Node α) (t : Term α (Node α)) : Node α :=
  let reduced := Term.ofNodes t.numerator t.denominator
    (t.realFactors.map (reduceFactor reduce)) (t.realDivisors.map (reduceFactor reduce))
  if reduced.isZero then .number 0
  else if reduced.denominator == 1 && reduced.realDivisors.isEmpty then
    match reduced.realFactors with
    | [] => ofValue reduced.numerator
    | [f] =>
      let only := reduceFactor reduce f
      if reduced.numerator == 1 then only
      else if reduced.numerator == -1 then
        match only with
        | .var v negative => .var v !negative
        | .constant c negative => .constant c !negative
        | _ => .product reduced
      else .product reduced
    | _ => .product reduced
  else .product reduced

/-- Reduces the tree down to the given height. -/
def reduceAt : Nat → Node α → Node α
  | 0, n => n
  | height + 1, n =>
    match n with
    | .power f => reduceFactor (reduceAt height) f
    | .product t => reduceTerm (reduceAt height) t
    | .sum [t] => reduceTerm (reduceAt height) t
    | .sum ts => .sum (flattened (ts.map (reduceTerm (reduceAt height))))
    | .unary f x => .unary f (reduceAt height x)
    | .binary f x y => .binary f (reduceAt height x) (reduceAt height y)
    | n => n

/-- The plainest node of the expression. -/
def reduce (n : Node α) : Node α := reduceAt n.height n

end Node

end SymbolicAlgebra
