/-
  Scalars
  =======
  The numbers an expression computes with. The algebra of expressions is written
  over any type with these operations: binary floating-point numbers run it, exact
  rational numbers explain it.

  Tests are Boolean and comparison is that of the numbers themselves, so an
  undefined number may differ from itself.

  The second half reduces fractions. `reduceFraction` scales both parts to whole
  numbers, divides them by their greatest common factor and keeps the denominator
  positive; a fraction with too many decimal places stays as it is.
-/
import SymbolicAlgebra.Function
import SymbolicAlgebra.Failure
import SymbolicAlgebra.Decimal.Basic

namespace SymbolicAlgebra

/-- The operations an expression needs of its numbers. -/
class Scalar (α : Type) extends Zero α, One α, Add α, Sub α, Mul α, Div α, Neg α, BEq α where
  /-- Whether the first number is below the second. -/
  lt : α → α → Bool
  /-- Whether the number is neither infinite nor undefined. -/
  isFinite : α → Bool
  /-- Whether the number is a whole number. -/
  isWhole : α → Bool
  /-- The whole number a whole scalar stands for. -/
  toInt : α → Int
  /-- The scalar nearest to a whole number. -/
  ofInt : Int → α
  /-- The scalar nearest to a decimal fraction. -/
  ofDecimal : Decimal → α
  /-- How many digits stand after the point when the number is written out. -/
  places : α → Nat
  /-- The nearest whole number, a half going to the even one; none for an infinite number. -/
  nearestWhole : α → Option α
  /-- The base raised to the exponent, undefined where no number is the power. -/
  power : α → α → α
  /-- The result of an operation that has none. -/
  undefined : α
  /-- The value of a constant. -/
  constant : Constant → α
  /-- The value of a function of one argument. -/
  unary : Unary → α → α
  /-- The value of a function of two arguments. -/
  binary : Binary → α → α → α
  /-- The number as an expression writes it. -/
  text : α → String
  /-- Zero equals itself, as an undefined number need not. -/
  zero_beq_zero : ((0 : α) == 0) = true

namespace Scalar

variable {α : Type} [Scalar α]

/-- Whether the number is an odd whole number. -/
def isOdd (x : α) : Bool := isWhole x && toInt x % 2 == 1

/-- The quotient, undefined for a zero divisor. -/
def quotient (x y : α) : α := if y == 0 then undefined else x / y

/-- The number, with a zero in place of a negative zero. -/
def unsignedZero (x : α) : α := if x == 0 then 0 else x

/-! ### Fractions -/

-- a power of whole numbers is that of the core library, whatever else has powers
attribute [local instance (1100)] instPowNat

/-- From this many decimal places on a fraction is not scaled to whole parts. -/
def maxPlaces : Nat := 10

/-- How many digits stand after the point, up to the bound. -/
def decimalPlaces (x : α) : Nat := min (places x) maxPlaces

/-- The greatest common factor of two whole numbers that are not both zero, otherwise one. -/
def commonFactor (x y : α) : α :=
  if isWhole x && isWhole y then
    let factor := Int.gcd (toInt x) (toInt y)
    if factor = 0 then 1 else ofInt factor
  else 1

/-- A whole number nearest to the scaled one; fails when scaling leaves the finite numbers. -/
def scaled (scale x : α) : Checked α :=
  match nearestWhole (x * scale) with
  | some n => .ok n
  | none => .error .overflow

/-- Divides both parts by their greatest common factor. -/
def lowestTerms (numerator denominator : α) : α × α :=
  let factor := commonFactor numerator denominator
  (numerator / factor, denominator / factor)

/-- The fraction in lowest terms, with a positive denominator. A fraction with a part that is
not finite, with a zero denominator or with too many places keeps its parts. -/
def reduceFraction (numerator denominator : α) : Checked (α × α) :=
  if !(isFinite numerator && isFinite denominator) || denominator == 0 then
    .ok (numerator, denominator)
  else
    let (n, d) := if lt denominator 0 then (-numerator, -denominator) else (numerator, denominator)
    let digits := max (decimalPlaces n) (decimalPlaces d)
    if maxPlaces ≤ digits then .ok (n, d)
    else if digits = 0 then .ok (lowestTerms n d)
    else do
      let scale := ofInt (10 ^ digits)
      let whole ← scaled scale n
      let parts ← scaled scale d
      return lowestTerms whole parts

end Scalar

end SymbolicAlgebra
