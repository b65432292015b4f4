/-
  Questions about nodes
  =====================
  What can be told of an expression without values for its variables: whether it is
  certainly one or zero, whether it is written with a minus sign, whether it holds
  variables or other symbols.

  A factor that is certainly one does not count: the *real* factors of a term are
  the others, and every rule about terms speaks of the real ones.
-/
import SymbolicAlgebra.Node.Basic
import SymbolicAlgebra.Scalar

namespace SymbolicAlgebra

variable {α : Type} [Scalar α]

namespace Node

/-- The value of a plain number. -/
def value? : Node α → Option α
  | .number x => some x
  | _ => none

/-- Whether the node is a plain number. -/
def isNumber : Node α → Bool
  | .number _ => true
  | _ => false

/-- Whether the node is the plain number one. -/
def isUnit : Node α → Bool
  | .number x => x == 1
  | _ => false

/-! ### One and zero -/

mutual

/-- Whether the node is certainly one. -/
def isOne : Node α → Bool
  | .number x => x == 1
  | .power ⟨base, exponent⟩ => exponent.isZero || base.isOne
  | .product ⟨n, d, fs, gs⟩ => n == d && allOne fs && allOne gs
  | .sum [⟨n, d, fs, gs⟩] => n == d && allOne fs && allOne gs
  | _ => false

/-- Whether the node is certainly zero. -/
def isZero : Node α → Bool
  | .number x => x == 0
  | .power ⟨base, exponent⟩ => !exponent.isZero && base.isZero
  | .product ⟨n, d, fs, _⟩ => !(d == 0) && (n == 0 || someZero fs)
  | .sum [⟨n, d, fs, _⟩] => !(d == 0) && (n == 0 || someZero fs)
  | _ => false

/-- Whether every factor is certainly one. -/
def allOne : List (Factor (Node α)) → Bool
  | [] => true
  | ⟨base, exponent⟩ :: fs => (exponent.isZero || base.isOne) && allOne fs

/-- Whether a real factor is certainly zero. -/
def someZero : List (Factor (Node α)) → Bool
  | [] => false
  | ⟨base, exponent⟩ :: fs =>
    !(exponent.isZero || base.isOne) && (!exponent.isZero && base.isZero) || someZero fs

end

end Node

namespace Factor

/-- Whether the factor is certainly one. -/
def isOne (f : Factor (Node α)) : Bool := f.exponent.isZero || f.base.isOne

/-- Whether the factor is certainly zero. -/
def isZero (f : Factor (Node α)) : Bool := !f.exponent.isZero && f.base.isZero

/-- The factor `1 ^ 0`, which stands for an empty product. -/
def empty : Factor (Node α) := ⟨.number 1, .number 0⟩

theorem isOne_empty : (empty : Factor (Node α)).isOne = true := by
  rw [isOne, empty, Node.isZero, Scalar.zero_beq_zero, Bool.true_or]

theorem ne_empty_of_real {f : Factor (Node α)} (real : f.isOne = false) : f ≠ empty := by
  rintro rfl
  rw [isOne_empty] at real
  cases real

/-- Whether the factor is a base with the plain exponent one. -/
def isUnit (f : Factor (Node α)) : Bool := f.exponent.isUnit

end Factor

/-- The factors that are not certainly one. -/
def realFactors (fs : List (Factor (Node α))) : List (Factor (Node α)) :=
  fs.filter fun f => !f.isOne

theorem realFactors_of_one {f : Factor (Node α)} (one : f.isOne = true)
    (fs : List (Factor (Node α))) : realFactors (f :: fs) = realFactors fs := by
  simp [realFactors, one]

theorem realFactors_of_real {f : Factor (Node α)} (real : ¬ f.isOne = true)
    (fs : List (Factor (Node α))) : realFactors (f :: fs) = f :: realFactors fs := by
  simp [realFactors, real]

namespace Term

/-- The factors above the bar that count. -/
def realFactors (t : Term α (Node α)) : List (Factor (Node α)) :=
  SymbolicAlgebra.realFactors t.factors

/-- The factors below the bar that count. -/
def realDivisors (t : Term α (Node α)) : List (Factor (Node α)) :=
  SymbolicAlgebra.realFactors t.divisors

/-- Whether the term is certainly one. -/
def isOne (t : Term α (Node α)) : Bool := (Node.product t).isOne

/-- Whether the term is certainly zero. -/
def isZero (t : Term α (Node α)) : Bool := (Node.product t).isZero

end Term

namespace Node

theorem allOne_eq (fs : List (Factor (Node α))) : allOne fs = fs.all Factor.isOne := by
  induction fs with
  | nil => rfl
  | cons f fs ih => rw [allOne, ih, List.all_cons]; rfl

theorem someZero_eq (fs : List (Factor (Node α))) :
    someZero fs = (realFactors fs).any Factor.isZero := by
  induction fs with
  | nil => rfl
  | cons f fs ih =>
    rw [someZero, ih]
    by_cases h : f.isOne = true
    · simp [realFactors, h, show (f.exponent.isZero || f.base.isOne) = true from h]
    · simp only [Bool.not_eq_true] at h
      simp [realFactors, h, show (f.exponent.isZero || f.base.isOne) = false from h, Factor.isZero]

/-! ### Signs -/

mutual

/-- Whether the node is written with a minus sign. -/
def isNegative : Node α → Bool
  | .number x => Scalar.lt x 0
  | .constant _ negative => negative
  | .var _ negative => negative
  | .power ⟨base, exponent⟩ => base.isNegative && (exponent.value?.map Scalar.isOdd).getD false
  | .product ⟨n, _, fs, gs⟩ => Scalar.lt n 0 != (oddSigns fs != oddSigns gs)
  | .sum [⟨n, _, fs, gs⟩] => Scalar.lt n 0 != (oddSigns fs != oddSigns gs)
  | _ => false

/-- Whether an odd number of the real factors is written with a minus sign. -/
def oddSigns : List (Factor (Node α)) → Bool
  | [] => false
  | ⟨base, exponent⟩ :: fs =>
    (!(exponent.isZero || base.isOne) && base.isNegative &&
      (exponent.value?.map Scalar.isOdd).getD false) != oddSigns fs

end

/-! ### Symbols -/

mutual

/-- Whether the node holds no variable. -/
def isConstant : Node α → Bool
  | .number _ => true
  | .constant .. => true
  | .var .. => false
  | .power ⟨base, exponent⟩ => base.isConstant && exponent.isConstant
  | .product ⟨_, _, fs, gs⟩ => allConstant fs && allConstant gs
  | .sum ts => allTermsConstant ts
  | .unary _ x => x.isConstant
  | .binary _ x y => x.isConstant && y.isConstant

/-- Whether no factor holds a variable. -/
def allConstant : List (Factor (Node α)) → Bool
  | [] => true
  | ⟨base, exponent⟩ :: fs => base.isConstant && exponent.isConstant && allConstant fs

/-- Whether no term holds a variable. -/
def allTermsConstant : List (Term α (Node α)) → Bool
  | [] => true
  | ⟨_, _, fs, gs⟩ :: ts => allConstant fs && allConstant gs && allTermsConstant ts

end

omit [Scalar α] in
theorem allConstant_eq (fs : List (Factor (Node α))) :
    allConstant fs = fs.all fun f => (Node.power f).isConstant := by
  induction fs with
  | nil => rfl
  | cons f fs ih => rw [allConstant, ih, List.all_cons, isConstant]

omit [Scalar α] in
theorem allTermsConstant_eq (ts : List (Term α (Node α))) :
    allTermsConstant ts = ts.all fun t => (Node.product t).isConstant := by
  induction ts with
  | nil => rfl
  | cons t ts ih => rw [allTermsConstant, ih, List.all_cons, isConstant]

mutual

/-- Whether the node holds anything but plain numbers. -/
def hasSymbol : Node α → Bool
  | .number _ => false
  | .power ⟨base, exponent⟩ => base.hasSymbol || exponent.hasSymbol
  | .product ⟨_, _, fs, gs⟩ => someSymbol fs || someSymbol gs
  | .sum ts => someTermSymbol ts
  | _ => true

/-- Whether a factor holds a symbol. -/
def someSymbol : List (Factor (Node α)) → Bool
  | [] => false
  | ⟨base, exponent⟩ :: fs => base.hasSymbol || exponent.hasSymbol || someSymbol fs

/-- Whether a term holds a symbol. -/
def someTermSymbol : List (Term α (Node α)) → Bool
  | [] => false
  | ⟨_, _, fs, gs⟩ :: ts => someSymbol fs || someSymbol gs || someTermSymbol ts

end

mutual

/-- The names of the variables, in the order they stand in the tree; factors that are
certainly one are passed over. -/
def «variables» : Node α → List String
  | .var v _ => [v.name]
  | .power ⟨base, exponent⟩ => base.«variables» ++ exponent.«variables»
  | .product ⟨_, _, fs, gs⟩ => factorVariables fs ++ factorVariables gs
  | .sum ts => termVariables ts
  | .unary _ x => x.«variables»
  | .binary _ x y => x.«variables» ++ y.«variables»
  | _ => []

/-- The names of the variables in the real factors. -/
def factorVariables : List (Factor (Node α)) → List String
  | [] => []
  | ⟨base, exponent⟩ :: fs =>
    (if exponent.isZero || base.isOne then [] else base.«variables» ++ exponent.«variables»)
      ++ factorVariables fs

/-- The names of the variables in the terms. -/
def termVariables : List (Term α (Node α)) → List String
  | [] => []
  | ⟨_, _, fs, gs⟩ :: ts => factorVariables fs ++ factorVariables gs ++ termVariables ts

end

theorem factorVariables_eq (fs : List (Factor (Node α))) :
    factorVariables fs = (realFactors fs).flatMap fun f => (Node.power f).«variables» := by
  induction fs with
  | nil => rfl
  | cons f fs ih =>
    rw [factorVariables, ih]
    by_cases one : f.isOne = true
    · simp [realFactors, one, show (f.exponent.isZero || f.base.isOne) = true from one]
    · simp only [Bool.not_eq_true] at one
      simp [realFactors, one, show (f.exponent.isZero || f.base.isOne) = false from one,
        «variables»]

theorem mem_factorVariables {name : String} {fs : List (Factor (Node α))} :
    name ∈ factorVariables fs ↔ ∃ f ∈ realFactors fs, name ∈ (Node.power f).«variables» := by
  rw [factorVariables_eq, List.mem_flatMap]

theorem termVariables_eq (ts : List (Term α (Node α))) :
    termVariables ts = ts.flatMap fun t => (Node.product t).«variables» := by
  induction ts with
  | nil => rfl
  | cons t ts ih => rw [termVariables, ih, List.flatMap_cons, «variables»]

theorem mem_termVariables {name : String} {ts : List (Term α (Node α))} :
    name ∈ termVariables ts ↔ ∃ t ∈ ts, name ∈ (Node.product t).«variables» := by
  rw [termVariables_eq, List.mem_flatMap]

mutual

/-- How many nodes the tree has; factors that are certainly one are passed over. -/
def size : Node α → Nat
  | .power ⟨base, exponent⟩ => 1 + base.size + exponent.size
  | .product ⟨_, _, fs, gs⟩ => 1 + (factorSizes fs + factorSizes gs)
  | .sum ts => 1 + termSizes ts
  | .unary _ x => 1 + x.size
  | .binary _ x y => 1 + x.size + y.size
  | _ => 1

/-- How many nodes the real factors have. -/
def factorSizes : List (Factor (Node α)) → Nat
  | [] => 0
  | ⟨base, exponent⟩ :: fs =>
    (if exponent.isZero || base.isOne then 0 else 1 + base.size + exponent.size) + factorSizes fs

/-- How many nodes the terms have. -/
def termSizes : List (Term α (Node α)) → Nat
  | [] => 0
  | ⟨_, _, fs, gs⟩ :: ts => 1 + (factorSizes fs + factorSizes gs) + termSizes ts

end

end Node

end SymbolicAlgebra
