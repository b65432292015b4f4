/-
  Arithmetic of expressions
  =========================
  Products, quotients, differences and signs of nodes. Numbers are computed, a
  variable times itself is its square, two sums are multiplied out and simplified,
  and anything else becomes a term. Only the product of two sums can fail, because
  only it adds.
-/
import SymbolicAlgebra.Node.Simplify

namespace SymbolicAlgebra

variable {α : Type} [Scalar α]

namespace Node

/-- Whether the node is the plain number minus one. -/
def isMinusOne : Node α → Bool
  | .number x => x == -1
  | _ => false

/-- The product as a term. -/
def timesTerm (m n : Node α) : Node α := .product ((Term.wrap m).times (Term.wrap n))

/-- The terms of the product of two sums, not yet merged. -/
def crossTerms (ts us : List (Term α (Node α))) : List (Term α (Node α)) :=
  ts.flatMap fun t => us.map fun u => t.times u

/-- The product of two expressions. -/
def multiply : Node α → Node α → Checked (Node α)
  | .number x, .number y => .ok (ofValue (x * y))
  | .constant c negative, n =>
    .ok (if n.isMinusOne then .constant c !negative else timesTerm (.constant c negative) n)
  | .var v negative, .var w opposite =>
    if v == w then
      let square : Factor (Node α) := ⟨.var v false, .number (Scalar.ofInt 2)⟩
      .ok (if negative != opposite then .product (Term.normal (-1) 1 [square] []) else .power square)
    else .ok (timesTerm (.var v negative) (.var w opposite))
  | .var v negative, n =>
    .ok (if n.isMinusOne then .var v !negative else timesTerm (.var v negative) n)
  | .sum ts, .sum us => return .sum (← simplifyTerms (flattenedTerms (crossTerms ts us)))
  | m, n => .ok (timesTerm m n)

/-- The expression with the opposite sign. -/
def negate : Node α → Node α
  | .number x => ofValue (-x)
  | .constant c negative => .constant c !negative
  | .var v negative => .var v !negative
  | n => timesTerm n (.number (-1))

/-- The difference of two expressions. -/
def subtract (m n : Node α) : Checked (Node α) := m.add n.negate

/-- The quotient of two expressions. -/
def divide (m n : Node α) : Checked (Node α) :=
  m.multiply (.product (Term.fraction (.number 1) n))

/-- The first expression raised to the second. -/
def raise (m n : Node α) : Node α := .power (Factor.raised m n)

/-- The product of `count` more copies of the second node with the first. -/
def multiplyRepeatedly (m n : Node α) : Nat → Checked (Node α)
  | 0 => .ok m
  | count + 1 => do (← m.multiply n).multiplyRepeatedly n count

end Node

end SymbolicAlgebra
