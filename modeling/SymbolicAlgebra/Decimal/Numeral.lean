/-
  Numerals
  ========
  Reading numbers from text. Digits of every script count, blanks around a numeral
  do not (characters that separate records are no such blanks), and a single underscore may stand between two digits.

  `integer?` reads whole numbers, `real?` reads decimal numbers with an optional
  exponent and the words for infinity and for an undefined number.
-/
import SymbolicAlgebra.Text.Blank
import SymbolicAlgebra.Text.Digit
import SymbolicAlgebra.Decimal.Basic

namespace SymbolicAlgebra.Decimal

open SymbolicAlgebra.Text

/-- The number that a run of decimal digits writes; other characters count as zero. -/
def ofDigits (cs : List Char) : Nat :=
  cs.foldl (fun n c => 10 * n + (digitValue? c).getD 0) 0

/-- The text without its underscores, unless one of them does not stand between two digits.
`afterDigit` tells whether a digit stands just before the text. -/
def withoutUnderscores (afterDigit : Bool) : List Char → Option (List Char)
  | [] => some []
  | '_' :: c :: rest =>
    if afterDigit && isDecimal c then (withoutUnderscores true rest).map (c :: ·) else none
  | '_' :: [] => none
  | c :: rest => (withoutUnderscores (isDecimal c) rest).map (c :: ·)

/-- Splits a sign off the front: whether it was a minus, and the rest. -/
def splitSign : List Char → Bool × List Char
  | '-' :: rest => (true, rest)
  | '+' :: rest => (false, rest)
  | cs => (false, cs)

/-- Reads a whole number with an optional sign. -/
def integer? (text : String) : Option Int := do
  let (negative, cs) := splitSign (trimWhere isMargin text.toList)
  let digits ← withoutUnderscores false cs
  if digits ≠ [] ∧ digits.all isDecimal then
    let n := Int.ofNat (ofDigits digits)
    some (if negative then -n else n)
  else none

/-- A number read from text. -/
inductive Numeral where
  | undefined
  | infinite (negative : Bool)
  | finite (negative : Bool) (size : Decimal)
deriving DecidableEq, Repr

/-- Reads the exponent that may follow a mantissa: nothing, or `e`, a sign and digits. -/
def exponent? : List Char → Option Int
  | [] => some 0
  | c :: rest =>
    let (negative, digits) := splitSign rest
    if (c = 'e' ∨ c = 'E') ∧ digits ≠ [] ∧ digits.all isDecimal then
      let n := Int.ofNat (ofDigits digits)
      some (if negative then -n else n)
    else none

/-- Reads digits, at most one point among them, and an exponent. -/
def unsigned? (cs : List Char) : Option Decimal := do
  let whole := cs.takeWhile isDecimal
  let (fraction, rest) := match cs.dropWhile isDecimal with
    | '.' :: rest => (rest.takeWhile isDecimal, rest.dropWhile isDecimal)
    | rest => ([], rest)
  if whole = [] ∧ fraction = [] then none
  else
    let exponent ← exponent? rest
    some ⟨ofDigits (whole ++ fraction), exponent - fraction.length⟩

/-- Reads a decimal number, an infinity or the undefined number, each with an optional sign. -/
def real? (text : String) : Option Numeral := do
  let (negative, cs) := splitSign (← withoutUnderscores false (trimWhere isMargin text.toList))
  let word := String.ofList (cs.map Char.toLower)
  if word = "nan" then some .undefined
  else if word = "inf" ∨ word = "infinity" then some (.infinite negative)
  else (unsigned? cs).map (.finite negative)

example : integer? " -1_0 " = some (-10) := by decide
example : integer? "1__0" = none := by decide
example : real? "-.5e3" = some (.finite true ⟨5, 2⟩) := by decide
example : real? "+Infinity" = some (.infinite false) := by decide
example : real? "1e" = none := by decide

end SymbolicAlgebra.Decimal
