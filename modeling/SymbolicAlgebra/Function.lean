/-
  Constants, functions and operators
  ==================================
  The names an expression may use besides its variables: two constants, the
  functions that are called by name, and two operators (`%` and `!`) that stand
  for a function without giving its name.

  A function is identified by what it is, not by its text, so a call never holds a
  name without a meaning or a wrong number of arguments.
  **`Function.ofName?_name`** ties the two together: a registered function is found
  under its own name.
-/
namespace SymbolicAlgebra

/-- A named mathematical constant. -/
inductive Constant where
  | pi
  | e
deriving DecidableEq, Repr

/-- How the constant is written. -/
def Constant.symbol : Constant → String
  | .pi => "pi"
  | .e => "e"

/-- The constant written so; the Greek letter is a second spelling of `pi`. -/
def Constant.ofSymbol? (text : String) : Option Constant :=
  if text = "pi" ∨ text = "π" then some .pi else if text = "e" then some .e else none

/-- A function of one argument. `factorial` is the function `fact` written with `!`. -/
inductive Unary where
  | sin | cos | tan | asin | acos | atan | sinh | cosh | tanh
  | sqrt | abs | ln | log | exp | floor | ceil | round | fact
  | factorial
deriving DecidableEq, Repr

/-- A function of two arguments. `remainder` is only written with `%`. -/
inductive Binary where
  | gcf | lcm | max | min
  | remainder
deriving DecidableEq, Repr

/-- A function of either number of arguments. -/
inductive Function where
  | unary (f : Unary)
  | binary (f : Binary)
deriving DecidableEq, Repr

/-- The name a call shows. -/
def Unary.name : Unary → String
  | .sin => "sin" | .cos => "cos" | .tan => "tan"
  | .asin => "asin" | .acos => "acos" | .atan => "atan"
  | .sinh => "sinh" | .cosh => "cosh" | .tanh => "tanh"
  | .sqrt => "sqrt" | .abs => "abs" | .ln => "ln" | .log => "log" | .exp => "exp"
  | .floor => "floor" | .ceil => "ceil" | .round => "round"
  | .fact => "fact" | .factorial => "fact"

/-- The name a call shows. -/
def Binary.name : Binary → String
  | .gcf => "gcf" | .lcm => "lcm" | .max => "max" | .min => "min" | .remainder => "mod"

/-- Whether the function is written as an operator instead of by name. -/
def Unary.isOperator : Unary → Bool
  | .factorial => true
  | _ => false

/-- Whether the function is written as an operator instead of by name. -/
def Binary.isOperator : Binary → Bool
  | .remainder => true
  | _ => false

namespace Function

/-- The name a call shows. -/
def name : Function → String
  | .unary f => f.name
  | .binary f => f.name

/-- How many arguments the function takes. -/
def arity : Function → Nat
  | .unary _ => 1
  | .binary _ => 2

/-- One line for the list of functions. -/
def description : Function → String
  | .unary .sin => "Sine (radians)"
  | .unary .cos => "Cosine (radians)"
  | .unary .tan => "Tangent (radians)"
  | .unary .asin => "Inverse sine"
  | .unary .acos => "Inverse cosine"
  | .unary .atan => "Inverse tangent"
  | .unary .sinh => "Hyperbolic sine"
  | .unary .cosh => "Hyperbolic cosine"
  | .unary .tanh => "Hyperbolic tangent"
  | .unary .sqrt => "Square root"
  | .unary .abs => "Absolute value"
  | .unary .ln => "Natural logarithm"
  | .unary .log => "Base 10 logarithm"
  | .unary .exp => "e raised to a power"
  | .unary .floor => "Round down"
  | .unary .ceil => "Round up"
  | .unary .round => "Round to nearest whole number"
  | .unary .fact | .unary .factorial => "Factorial"
  | .binary .gcf => "Greatest common factor"
  | .binary .lcm => "Least common multiple"
  | .binary .max => "Larger of two values"
  | .binary .min => "Smaller of two values"
  | .binary .remainder => "Remainder of a division"

/-- What every function gives back. -/
def resultKind : String := "number"

/-- The functions that are called by name, in the order of their names. -/
def registered : List Function :=
  [.unary .abs, .unary .acos, .unary .asin, .unary .atan, .unary .ceil, .unary .cos,
   .unary .cosh, .unary .exp, .unary .fact, .unary .floor, .binary .gcf, .binary .lcm,
   .unary .ln, .unary .log, .binary .max, .binary .min, .unary .round, .unary .sin,
   .unary .sinh, .unary .sqrt, .unary .tan, .unary .tanh]

/-- The function called by this name. -/
def ofName? (text : String) : Option Function :=
  registered.find? fun f => f.name == text

/-- The function behind an operator sign. -/
def ofSign? (text : String) : Option Function :=
  if text = "%" then some (.binary .remainder)
  else if text = "!" then some (.unary .factorial)
  else none

theorem ofName?_name {f : Function} (h : f ∈ registered) : ofName? f.name = some f := by
  revert f
  decide

theorem name_of_ofName? {text : String} {f : Function} (h : ofName? text = some f) :
    f.name = text := by
  simpa using List.find?_some h

/-- A function is registered exactly when it is not written as an operator. -/
theorem mem_registered (f : Function) :
    f ∈ registered ↔ f ≠ .unary .factorial ∧ f ≠ .binary .remainder := by
  cases f with
  | unary g => cases g <;> decide
  | binary g => cases g <;> decide

end Function

end SymbolicAlgebra
