/-
  Binary floating-point scalars
  =============================
  The scalar operations on binary64 numbers. Arithmetic rounds once per operation;
  powers and functions are those of the numeric library of the machine, except that
  a finite argument never gives an infinite value of a function: such a value is
  undefined.
-/
import SymbolicAlgebra.Binary64.Parts
import SymbolicAlgebra.Scalar

namespace SymbolicAlgebra.Binary64

-- a power of whole numbers is that of the core library, whatever else has powers
attribute [local instance (1100)] instPowNat

/-- The value of the function, undefined where a finite argument gives an infinite one. -/
def guarded (f : Float → Float) (x : Float) : Float :=
  let y := f x
  if x.isFinite && y.isInf then undefined else y

/-- The power of two finite numbers is undefined when it does not exist and infinite when it
is too large; otherwise it is that of the machine. -/
def power (base exponent : Float) : Float :=
  let result := Float.pow base exponent
  if base.isFinite && exponent.isFinite && result.isInf then
    (if base == 0 then undefined else infinity false)
  else result

/-- The product of the numbers from one to `n`. -/
def factorialNat : Nat → Nat
  | 0 => 1
  | n + 1 => (n + 1) * factorialNat n

/-- The largest number with a finite factorial. -/
def maxFactorial : Int := 170

/-- The factorial of a whole number that is not negative, infinite when it is too large. -/
def factorial (x : Float) : Float :=
  if !isWhole x || x < 0 then undefined
  else
    let n := floorInt x
    if maxFactorial < n then infinity false else Float.ofNat (factorialNat n.toNat)

/-- The greatest common factor of the sizes of two whole numbers, one when both are zero. -/
def greatestFactor (x y : Float) : Float :=
  if isWhole x && isWhole y then
    let factor := Int.gcd (floorInt x) (floorInt y)
    if factor = 0 then 1 else Float.ofNat factor
  else undefined

/-- The least common multiple of two whole numbers. -/
def leastMultiple (x y : Float) : Float :=
  if !(isWhole x && isWhole y) then undefined
  else if x == 0 || y == 0 then 0
  else Float.abs (x * y) / greatestFactor x y

/-- The value of a function of one argument. -/
def unary : Unary → Float → Float
  | .sin => guarded Float.sin
  | .cos => guarded Float.cos
  | .tan => guarded Float.tan
  | .asin => guarded Float.asin
  | .acos => guarded Float.acos
  | .atan => guarded Float.atan
  | .sinh => guarded Float.sinh
  | .cosh => guarded Float.cosh
  | .tanh => guarded Float.tanh
  | .sqrt => guarded Float.sqrt
  | .abs => Float.abs
  | .ln => guarded Float.log
  | .log => guarded Float.log10
  | .exp => guarded Float.exp
  | .floor => floor
  | .ceil => ceil
  | .round => fun x => (nearestWhole x).getD undefined
  | .fact => factorial
  | .factorial => factorial

/-- The value of a function of two arguments. Of two numbers that do not compare, the larger
and the smaller one are the first. -/
def binary : Binary → Float → Float → Float
  | .gcf => greatestFactor
  | .lcm => leastMultiple
  | .max => fun x y => if x < y then y else x
  | .min => fun x y => if y < x then y else x
  | .remainder => remainder

/-- The value of a constant. -/
def constant : Constant → Float
  | .pi => 3.141592653589793
  | .e => 2.718281828459045

instance : Scalar Float where
  zero := 0
  one := 1
  add := Float.add
  sub := Float.sub
  mul := Float.mul
  div := Float.div
  neg := Float.neg
  beq := Float.beq
  lt x y := x < y
  isFinite := Float.isFinite
  isWhole := isWhole
  toInt := floorInt
  ofInt := Float.ofInt
  ofDecimal := ofDecimal
  places := places
  nearestWhole := nearestWhole
  power := power
  undefined := undefined
  constant := constant
  unary := unary
  binary := binary
  text := text
  zero_beq_zero := by decide

/-- The value of a function on a list of arguments, which must be as many as it takes. -/
def applied (f : Function) (arguments : List Float) : Checked Float :=
  match f, arguments with
  | .unary g, [x] => .ok (unary g x)
  | .binary g, [x, y] => .ok (binary g x y)
  | _, _ => .error (.misapplied f.name f.arity arguments.length)

/-- Whether two numbers are equal up to a relative and an absolute tolerance. -/
def isClose (relative absolute x y : Float) : Bool :=
  if x == y then true
  else if x.isInf || y.isInf then false
  else
    let difference := Float.abs (y - x)
    difference ≤ Float.abs (relative * y) || difference ≤ Float.abs (relative * x)
      || difference ≤ absolute

end SymbolicAlgebra.Binary64
