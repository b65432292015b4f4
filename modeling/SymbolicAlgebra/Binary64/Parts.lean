/-
  Binary floating-point numbers taken apart
  =========================================
  A finite binary64 number is a sign and `significand · 2 ^ exponent`. Everything
  the library decides about such numbers (whether they are whole, how they are
  written, what they leave as a remainder) is decided in exact integer arithmetic
  on these parts.
-/
import SymbolicAlgebra.Decimal.Rounding
import SymbolicAlgebra.Decimal.Shortest
import SymbolicAlgebra.Decimal.Layout
import SymbolicAlgebra.Decimal.Numeral

namespace SymbolicAlgebra.Binary64

-- a power of whole numbers is that of the core library, whatever else has powers
attribute [local instance (1100)] instPowNat

/-- What a binary64 number stands for. -/
inductive Parts where
  | undefined
  | infinite (negative : Bool)
  | finite (negative : Bool) (significand : Nat) (exponent : Int)
deriving DecidableEq, Repr

/-- Takes a number apart: a sign bit, eleven bits of exponent, fifty-two of significand. -/
def parts (x : Float) : Parts :=
  let bits := x.toBits.toNat
  let negative := 2 ^ (63 : Nat) ≤ bits
  let power := bits / 2 ^ (52 : Nat) % 2 ^ (11 : Nat)
  let low := bits % 2 ^ (52 : Nat)
  if power = 0x7FF then (if low = 0 then .infinite negative else .undefined)
  else if power = 0 then .finite negative low (-1074)
  else .finite negative (2 ^ (52 : Nat) + low) (Int.ofNat power - 1075)

/-- The undefined number. -/
def undefined : Float := 0.0 / 0.0

/-- The two infinities. -/
def infinity (negative : Bool) : Float := if negative then -1.0 / 0.0 else 1.0 / 0.0

/-- Puts a sign in front. -/
def signed (negative : Bool) (x : Float) : Float := if negative then -x else x

/-! ### Whole numbers -/

/-- Whether the number is finite and has no fraction. -/
def isWhole (x : Float) : Bool :=
  match parts x with
  | .finite _ m q => 0 ≤ q || m % 2 ^ (-q).toNat == 0
  | _ => false

/-- The greatest whole number not above a finite number; zero for the others. -/
def floorInt (x : Float) : Int :=
  match parts x with
  | .finite negative m q =>
    let numerator := Int.ofNat (m * 2 ^ q.toNat)
    Int.fdiv (if negative then -numerator else numerator) (Int.ofNat (2 ^ (-q).toNat))
  | _ => 0

/-- The nearest whole number to a finite number, a half going to the even one. -/
def nearestWhole (x : Float) : Option Float :=
  match parts x with
  | .finite negative m q =>
    let n := Int.ofNat (Decimal.nearestQuotient (m * 2 ^ q.toNat) (2 ^ (-q).toNat))
    some (Float.ofInt (if negative then -n else n))
  | _ => none

/-- The greatest whole number not above the number, undefined unless the number is finite. -/
def floor (x : Float) : Float :=
  if x.isFinite then Float.ofInt (floorInt x) else undefined

/-- The smallest whole number not below the number, undefined unless the number is finite. -/
def ceil (x : Float) : Float :=
  if x.isFinite then Float.ofInt (-floorInt (-x)) else undefined

/-! ### Remainders -/

/-- The number `m · 2 ^ q`, which must be a binary64 number itself. -/
def assemble (m : Nat) (q : Int) : Float :=
  if 0 ≤ q then Float.ofNat (m * 2 ^ q.toNat)
  else Float.ofScientific (m * 5 ^ (-q).toNat) true (-q).toNat

/-- The remainder of a division whose quotient is cut towards zero; it has the sign of the
dividend. Undefined for a zero divisor and for an infinite dividend. -/
def remainder (x y : Float) : Float :=
  match parts x, parts y with
  | .finite negative m q, .finite _ n r =>
    if n = 0 then undefined
    else
      let low := min q r
      let left := m * 2 ^ (q - low).toNat
      let right := n * 2 ^ (r - low).toNat
      signed negative (assemble (left % right) low)
  | .finite .., .infinite _ => x
  | _, _ => undefined

/-! ### Decimal text -/

/-- The reals that round to `m · 2 ^ q`. Halfway points belong to the number with the even
significand, and below a power of two the numbers lie twice as dense. -/
def neighbourhood (m : Nat) (q : Int) : Decimal.Interval :=
  let up := 2 ^ (q - 2).toNat
  let below := if m = 2 ^ (52 : Nat) ∧ -1074 < q then 1 else 2
  { low := (4 * m - below) * up
    mid := 4 * m * up
    high := (4 * m + 2) * up
    den := 2 ^ (2 - q).toNat
    closed := m % 2 == 0 }

/-- The shortest decimal fraction that reads back as `m · 2 ^ q`. -/
def shortest (m : Nat) (q : Int) : Decimal :=
  if m = 0 then ⟨0, 0⟩ else Decimal.shortest (neighbourhood m q)

/-- Puts a minus sign in front of a text. -/
def signedText (negative : Bool) (text : String) : String := if negative then "-" ++ text else text

/-- How many digits the shortest decimal text has after its point. -/
def places (x : Float) : Nat :=
  match parts x with
  | .finite _ m q => (shortest m q).places
  | _ => 0

/-- The shortest text that reads back, in the given layout. -/
def written (layout : Decimal.Layout) (x : Float) : String :=
  match parts x with
  | .undefined => "nan"
  | .infinite negative => signedText negative "inf"
  | .finite negative m q => signedText negative ((shortest m q).written layout)

/-- The number as an expression writes it: the fewest digits that read back, never with an
exponent, since the letter of the exponent would be read as a constant. -/
def text (x : Float) : String :=
  match parts x with
  | .undefined => "NaN"
  | .infinite negative => signedText negative "inf"
  | .finite negative m q =>
    if m = 0 then "0" else signedText negative (shortest m q).positional

/-- The number with a fixed count of places, a half going to the even digit. -/
def fixed (places : Nat) (x : Float) : String :=
  match parts x with
  | .undefined => "nan"
  | .infinite negative => signedText negative "inf"
  | .finite negative m q =>
    let units := Decimal.nearestQuotient (m * 2 ^ q.toNat * 10 ^ places) (2 ^ (-q).toNat)
    signedText negative (Decimal.fixedPoint places units)

/-- The number rounded to a count of significant digits, a half going to the even digit. -/
def significant (digits : Nat) (x : Float) : String :=
  match parts x with
  | .undefined => "nan"
  | .infinite negative => signedText negative "inf"
  | .finite negative m q =>
    if m = 0 then signedText negative "0"
    else
      let numerator := m * 2 ^ q.toNat
      let denominator := 2 ^ (-q).toNat
      let unit := Decimal.magnitude numerator denominator - digits + 1
      let rounded := Decimal.nearestQuotient (numerator * 10 ^ (-unit).toNat)
        (denominator * 10 ^ unit.toNat)
      signedText negative ((Decimal.reduced ⟨rounded, unit⟩).written .tabular)

/-! ### Reading -/

/-- The number nearest to a decimal fraction, an infinity when it is too large. Exponents that
decide the result by themselves are not worked out. -/
def ofDecimal (d : Decimal) : Float :=
  let size := Decimal.digitCount d.coefficient + d.exponent
  if d.coefficient = 0 ∨ size < -400 then 0
  else if 400 < size then infinity false
  else Float.ofScientific d.coefficient (d.exponent < 0) d.exponent.natAbs

/-- The number that a text writes. -/
def ofText? (text : String) : Option Float :=
  (Decimal.real? text).map fun
    | .undefined => undefined
    | .infinite negative => infinity negative
    | .finite negative size => signed negative (ofDecimal size)

example : text 0.1 = "0.1" := by decide +kernel
example : text (-1.5) = "-1.5" := by decide +kernel
example : written .general 1e22 = "1e+22" := by decide +kernel
example : written .general 5e-324 = "5e-324" := by decide +kernel
example : remainder (-7.5) 2.0 == -1.5 := by decide +kernel
example : significant 6 1048576.0 = "1.04858e+06" := by decide +kernel
example : fixed 4 0.00005 = "0.0001" := by decide +kernel

end SymbolicAlgebra.Binary64
