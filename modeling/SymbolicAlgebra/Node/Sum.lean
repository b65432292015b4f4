/-
  Building sums
  =============
  Every sum is built by `Node.flattened`: a sum among the summands gives up its own
  terms, and so does a term that is nothing but a sum in brackets; terms that are
  certainly zero are dropped unless nothing else is left; and the terms stand in
  descending order of their degree, equal degrees in the order they came.
-/
import SymbolicAlgebra.Node.Term
import SymbolicAlgebra.StableSort

namespace SymbolicAlgebra

variable {α : Type} [Scalar α]

namespace Term

/-- The greatest of some numbers, the first of those that do not compare. -/
def greatest? : List α → Option α
  | [] => none
  | x :: xs => some (xs.foldl (fun m y => if Scalar.lt m y then y else m) x)

/-- The exponents of the factors that have a plain number as exponent and a variable in their
base. -/
def degrees (fs : List (Factor (Node α))) : List α :=
  fs.filterMap fun f => if f.base.isConstant then none else f.exponent.value?

/-- The degree by which the terms of a sum are ordered: the greatest exponent above the bar,
else the negated smallest one below it, else zero. -/
def degree (t : Term α (Node α)) : α :=
  match greatest? (degrees t.realFactors) with
  | some x => x
  | none => (greatest? ((degrees t.realDivisors).map (- ·))).getD 0

/-- The coefficient as one number, undefined over zero. -/
def coefficient (t : Term α (Node α)) : α := Scalar.quotient t.numerator t.denominator

/-- The terms of the sum that the term is when it is nothing but a sum in brackets. -/
def soleSum? (t : Term α (Node α)) : Option (List (Term α (Node α))) :=
  if t.numerator == 1 && t.denominator == 1 then
    match t.realFactors, t.realDivisors with
    | [⟨.sum ts, exponent⟩], [] => if exponent.isUnit then some ts else none
    | _, _ => none
  else none

/-- The term zero. -/
def zero : Term α (Node α) := ofValue 0

/-- The term one. -/
def one : Term α (Node α) := ofValue 1

end Term

namespace Node

/-- The terms a summand contributes. -/
def summands : Node α → List (Term α (Node α))
  | .sum ts => ts
  | n =>
    let t := Term.wrap n
    t.soleSum?.getD [t]

/-- Whether one term has to stand before the other in a sum. -/
def precedes (t u : Term α (Node α)) : Bool := Scalar.lt (-t.degree) (-u.degree)

/-- The terms of the sum of some nodes. -/
def flattened (nodes : List (Node α)) : List (Term α (Node α)) :=
  let terms := (nodes.flatMap summands).filter fun t => !t.isZero
  StableSort.sorted precedes (if terms.isEmpty then [Term.zero] else terms)

/-- The sum of some terms. -/
def flattenedTerms (terms : List (Term α (Node α))) : List (Term α (Node α)) :=
  flattened (terms.map .product)

end Node

end SymbolicAlgebra
