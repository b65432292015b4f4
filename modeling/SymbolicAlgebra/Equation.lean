/-
  Equations
  =========
  Two expressions joined by an equals sign. Every transformation acts on the two
  sides apart; nothing moves from one side to the other.
-/
import SymbolicAlgebra.Node.Evaluate
import SymbolicAlgebra.Node.Expand
import SymbolicAlgebra.Node.Printer
import SymbolicAlgebra.Binary64.Arithmetic

namespace SymbolicAlgebra

/-- An equation. -/
structure Equation (α : Type) where
  left : Node α
  right : Node α
deriving Repr

namespace Equation

variable {α : Type}

/-- The equation with both sides transformed. -/
def mapM (f : Node α → Checked (Node α)) (e : Equation α) : Checked (Equation α) := do
  let left ← f e.left
  let right ← f e.right
  return ⟨left, right⟩

variable [Scalar α]

/-- The names of the variables of both sides. -/
def «variables» (e : Equation α) : List String := e.left.«variables» ++ e.right.«variables»

/-- How many nodes both sides have. -/
def size (e : Equation α) : Nat := e.left.size + e.right.size

/-- The relative tolerance within which two sides agree. -/
def relativeTolerance : Float := 1e-9

/-- The absolute tolerance within which two sides agree. -/
def absoluteTolerance : Float := 1e-12

/-- Whether the two sides agree as numbers; undecided while one of them holds variables. -/
def isSatisfied (e : Equation Float) : Checked (Option Bool) := do
  if e.left.isConstant && e.right.isConstant then
    let left ← e.left.toNumber
    let right ← e.right.toNumber
    return some (Binary64.isClose relativeTolerance absoluteTolerance left right)
  else return none

/-- The equation as text; the sign shows when it is certainly wrong. -/
def toText (e : Equation Float) : Checked String := do
  let sign := if (← e.isSatisfied) = some false then "≠" else "="
  return e.left.toText ++ " " ++ sign ++ " " ++ e.right.toText

end Equation

end SymbolicAlgebra
