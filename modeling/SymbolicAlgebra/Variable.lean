/-
  Variables
  =========
  A variable is a letter with a subscript; subscript zero is not written. Its name
  is the letter, an underscore and the subscript, and `Variable.ofName?` reads it.
-/
import SymbolicAlgebra.Failure
import SymbolicAlgebra.Text.Letter
import SymbolicAlgebra.Decimal.Numeral

namespace SymbolicAlgebra

open SymbolicAlgebra.Text

/-- A letter with a subscript. -/
structure Variable where
  letter : Char
  subscript : Nat
deriving DecidableEq, Repr

/-- Drops one line feed from the end. -/
def withoutLineEnd (cs : List Char) : List Char :=
  if cs.getLast? = some '\n' then cs.dropLast else cs

/-- Whether the text has the form of a variable: an ASCII letter, alone or with a subscript of
decimal digits. One line feed may follow. -/
def isVariableName (text : String) : Bool :=
  match withoutLineEnd text.toList with
  | [c] => c.isAlpha
  | c :: '_' :: digits => c.isAlpha && !digits.isEmpty && digits.all isDecimal
  | _ => false

namespace Variable

/-- How the variable is written. -/
def name (v : Variable) : String :=
  if v.subscript = 0 then String.singleton v.letter
  else String.ofList (v.letter :: '_' :: Nat.toDigits 10 v.subscript)

/-- The variable of a text that must be a single letter and of a subscript that must not be
negative. -/
def ofParts? (letter : String) (subscript : Int) : Checked Variable :=
  match letter.toList with
  | [c] =>
    if isLetter c then
      if subscript < 0 then .error .negativeSubscript else .ok ⟨c, subscript.toNat⟩
    else .error (.invalidLetter letter)
  | _ => .error (.invalidLetter letter)

/-- The text before the first underscore and the text after it. -/
def splitName (cs : List Char) : List Char × List Char :=
  (cs.takeWhile (· != '_'), (cs.dropWhile (· != '_')).drop 1)

/-- Reads a variable from its name: a letter, and a whole number after an underscore. -/
def ofName? (text : String) : Checked Variable :=
  let (letter, subscript) := splitName text.toList
  if subscript.isEmpty then ofParts? (String.ofList letter) 0
  else
    match Decimal.integer? (String.ofList subscript) with
    | some n => ofParts? (String.ofList letter) n
    | none => .error (.notInteger (String.ofList subscript))

end Variable

end SymbolicAlgebra
