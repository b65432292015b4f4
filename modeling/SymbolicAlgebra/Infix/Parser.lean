/-
  Parsing
  =======
  From text to a reduced expression or an equation: tokens, symbols, postfix order,
  tree. The settings fix the brackets and bound their nesting; they are checked
  before they are used, so that no bracket can be taken for anything else.
-/
import SymbolicAlgebra.Infix.Token
import SymbolicAlgebra.Infix.Postfix
import SymbolicAlgebra.Infix.Tree
import SymbolicAlgebra.Node.Reduce
import SymbolicAlgebra.Equation

namespace SymbolicAlgebra

open SymbolicAlgebra.Text

/-- The brackets of expressions and the greatest depth of their nesting, if there is one. -/
structure ParserSettings where
  brackets : BracketTable := .round
  maxDepth : Option Int := none
deriving DecidableEq, Repr

namespace ParserSettings

/-- Characters that never serve as brackets, besides letters, digits and blanks. -/
def reservedSigns : List Char :=
  Symbol.operatorSigns ++
    [Symbol.multiplicationMark, Symbol.negationMark, Symbol.separator, '=', '_', '.']

/-- Whether the character never serves as a bracket. -/
def isReserved (c : Char) : Bool := reservedSigns.contains c || isAlphanumeric c || isBlank c

/-- Whether every character stands once in the list. -/
def allDistinct : List Char → Bool
  | [] => true
  | c :: cs => !cs.contains c && allDistinct cs

/-- The settings themselves if they can be used. -/
def check (settings : ParserSettings) : Checked ParserSettings :=
  let table := settings.brackets
  let text := String.ofList table
  if table.isEmpty || table.length % 2 == 1 then
    .error (.configuration (.unpairedBrackets text))
  else if !allDistinct table then .error (.configuration (.duplicateBrackets text))
  else
    match table.find? isReserved with
    | some c => .error (.configuration (.reservedBracket c))
    | none =>
      match settings.maxDepth with
      | some depth =>
        if depth < 1 then .error (.configuration (.depthBelowOne depth)) else .ok settings
      | none => .ok settings

/-- The symbols of a text. -/
def symbols (settings : ParserSettings) (text : String) : Checked (List Symbol) := do
  let tokens ← (Token.tokenize settings.brackets text).mapError Failure.parse
  Symbol.classify settings.brackets tokens

/-- The reduced expression that a text writes. -/
def parse {α : Type} [Scalar α] (settings : ParserSettings) (text : String) :
    Checked (Node α) := do
  let symbols ← settings.symbols text
  let postfixed ← Postfix.ofInfix settings.brackets settings.maxDepth symbols
  return (← Postfix.toNode postfixed).reduce

/-- The equation that a text writes: two expressions around one equals sign. -/
def parseEquation {α : Type} [Scalar α] (settings : ParserSettings) (text : String) :
    Checked (Equation α) :=
  let left := text.toList.takeWhile (· != '=')
  match text.toList.dropWhile (· != '=') with
  | [] => .error (.parse (.notOneEquals text))
  | _ :: right =>
    if right.contains '=' then .error (.parse (.notOneEquals text))
    else if (compact left).isEmpty || (compact right).isEmpty then
      .error (.parse (.emptySide text))
    else do
      let left ← settings.parse (String.ofList left)
      let right ← settings.parse (String.ofList right)
      return ⟨left, right⟩

end ParserSettings

end SymbolicAlgebra
