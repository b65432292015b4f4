/-
  Statements
  ==========
  What a line of input says: an expression, or an equation when the line holds an
  equals sign.
-/
import SymbolicAlgebra.Infix.Parser

namespace SymbolicAlgebra

/-- An expression or an equation. -/
inductive Statement where
  | expression (n : Node Float)
  | equation (e : Equation Float)
deriving Repr

namespace Statement

/-- Reads a line under settings that are checked first. -/
def read (settings : ParserSettings) (text : String) : Checked Statement := do
  let settings ← settings.check
  if text.toList.contains '=' then return .equation (← settings.parseEquation text)
  else return .expression (← settings.parse text)

/-- The statement with its expressions transformed. -/
def mapM (f : Node Float → Checked (Node Float)) : Statement → Checked Statement
  | .expression n => return .expression (← f n)
  | .equation e => return .equation (← e.mapM f)

/-- The expressions of the statement. -/
def sides : Statement → List (Node Float)
  | .expression n => [n]
  | .equation e => [e.left, e.right]

/-- The statement as text. -/
def toText : Statement → Checked String
  | .expression n => .ok n.toText
  | .equation e => e.toText

end Statement

end SymbolicAlgebra
