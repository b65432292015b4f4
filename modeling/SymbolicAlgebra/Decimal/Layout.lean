/-
  Written decimals
  ================
  How a decimal fraction becomes text. The digits are those of the coefficient;
  the layout only decides where the point and the zeros go and when a power of ten
  is written out as an exponent.
-/
import SymbolicAlgebra.Decimal.Basic

namespace SymbolicAlgebra.Decimal

/-- When a number is written with an exponent, and how a whole number ends. -/
structure Layout where
  /-- The smallest power of ten of a first digit that is written without an exponent. -/
  least : Int
  /-- The largest such power. -/
  greatest : Int
  /-- Whether a whole number without an exponent ends in a point and a zero. -/
  pointZero : Bool

/-- General numbers: plain from a ten-thousandth up to sixteen digits, with a point always. -/
def Layout.general : Layout := ⟨-4, 15, true⟩

/-- Numbers of six significant digits in a table: plain from a ten-thousandth up to six digits. -/
def Layout.tabular : Layout := ⟨-4, 5, false⟩

/-- The digits of the coefficient and the number of them that stand before the point,
negative when zeros follow the point first. -/
def digitsAndPoint (d : Decimal) : List Char × Int :=
  let digits := Nat.toDigits 10 d.coefficient
  (digits, digits.length + d.exponent)

/-- The number written out without an exponent; a whole number ends without a point. -/
def positional (d : Decimal) : String :=
  let (digits, point) := d.digitsAndPoint
  if point ≤ 0 then
    String.ofList ('0' :: '.' :: List.replicate (-point).toNat '0' ++ digits)
  else if digits.length ≤ point then
    String.ofList (digits ++ List.replicate (point.toNat - digits.length) '0')
  else
    String.ofList (digits.take point.toNat ++ '.' :: digits.drop point.toNat)

/-- The number with one digit before the point and a signed exponent of at least two digits. -/
def scientific (d : Decimal) : String :=
  let (digits, point) := d.digitsAndPoint
  let exponent := point - 1
  let mantissa := match digits with
    | first :: second :: rest => first :: '.' :: second :: rest
    | short => short
  let size := Nat.toDigits 10 exponent.natAbs
  let padding := if size.length < 2 then ['0'] else []
  let sign := if exponent < 0 then '-' else '+'
  String.ofList (mantissa ++ 'e' :: sign :: padding ++ size)

/-- A fraction without trailing zeros as the layout writes it. -/
def written (layout : Layout) (d : Decimal) : String :=
  let (_, point) := d.digitsAndPoint
  if d.coefficient = 0 then (if layout.pointZero then "0.0" else "0")
  else if point - 1 < layout.least || layout.greatest < point - 1 then d.scientific
  else if layout.pointZero && 0 ≤ d.exponent then d.positional ++ ".0"
  else d.positional

/-- A number of units of `10 ^ -places` with all its places written. -/
def fixedPoint (places units : Nat) : String :=
  let digits := Nat.toDigits 10 units
  let padded := List.replicate (places + 1 - digits.length) '0' ++ digits
  let whole := padded.length - places
  String.ofList (padded.take whole ++ '.' :: padded.drop whole)

example : written .general ⟨15, -1⟩ = "1.5" := by decide
example : written .general ⟨1, 16⟩ = "1e+16" := by decide
example : written .general ⟨12, -6⟩ = "1.2e-05" := by decide
example : written .tabular ⟨25, 0⟩ = "25" := by decide
example : positional ⟨12, -6⟩ = "0.000012" := by decide
example : fixedPoint 4 37500 = "3.7500" := by decide

end SymbolicAlgebra.Decimal
