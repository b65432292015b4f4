/-
  Evaluating
  ==========
  Replacing variables by the values of a scope and computing what has become a
  number. What stays symbolic stays an expression: evaluation gives back a node, and
  a plain number when every variable is bound and the scope collapses constants.
-/
import SymbolicAlgebra.Node.Arithmetic
import SymbolicAlgebra.Scope

namespace SymbolicAlgebra.Node

variable {α : Type} [Scalar α]

/-- A power with evaluated parts. -/
def evaluatedPower (base exponent : Node α) : Node α :=
  match exponent with
  | .number x =>
    if x == 0 then .number 1
    else if x == 1 then base
    else
      match base with
      | .number b => ofValue (Scalar.power b x)
      | _ => .power ⟨base, exponent⟩
  | _ => .power ⟨base, exponent⟩

/-- A fraction with evaluated parts, undefined over zero. -/
def evaluatedFraction (above below : Node α) : Node α :=
  match below with
  | .number d =>
    if d == 0 then ofValue Scalar.undefined
    else
      match above with
      | .number n => ofValue (Scalar.quotient n d)
      | _ => if d == 1 then above else .product (Term.fraction above below)
  | _ => .product (Term.fraction above below)

/-- A variable in a scope: its value, with the sign it carries, or itself. -/
def evaluatedVariable (scope : Option (Scope α)) (v : Variable) (negative : Bool) :
    Checked (Node α) := do
  match scope with
  | none => return .var v negative
  | some s =>
    match ← s.get v.name with
    | none => return .var v negative
    | some x => return ofValue (if negative then -x else x)

/-- A constant in a scope: its value if the scope collapses constants, else itself. -/
def evaluatedConstant (scope : Option (Scope α)) (c : Constant) (negative : Bool) : Node α :=
  if (scope.map (·.collapseConstants)).getD false then
    let x := Scalar.constant c
    ofValue (if negative then -x else x)
  else .constant c negative

mutual

/-- The expression with the values of the scope put in; without a scope nothing is bound. -/
def evaluate (scope : Option (Scope α)) : Node α → Checked (Node α)
  | .number x => return .number x
  | .constant c negative => return evaluatedConstant scope c negative
  | .var v negative => evaluatedVariable scope v negative
  | .power ⟨base, exponent⟩ => do
    let base ← base.evaluate scope
    let exponent ← exponent.evaluate scope
    return evaluatedPower base exponent
  | .product ⟨n, d, fs, gs⟩ => do
    let above ← evaluateProduct scope (ofValue n) fs
    let below ← evaluateProduct scope (ofValue d) gs
    return evaluatedFraction above below
  | .sum [] => return .number 0
  | .sum (⟨n, d, fs, gs⟩ :: ts) => do
    let above ← evaluateProduct scope (ofValue n) fs
    let below ← evaluateProduct scope (ofValue d) gs
    evaluateSum scope (evaluatedFraction above below) ts
  | .unary f x => do
    match ← x.evaluate scope with
    | .number v => return ofValue (Scalar.unary f v)
    | x => return .unary f x
  | .binary f x y => do
    match ← x.evaluate scope, ← y.evaluate scope with
    | .number v, .number w => return ofValue (Scalar.binary f v w)
    | x, y => return .binary f x y

/-- A node multiplied by the values of the real factors. -/
def evaluateProduct (scope : Option (Scope α)) (product : Node α) :
    List (Factor (Node α)) → Checked (Node α)
  | [] => return product
  | ⟨base, exponent⟩ :: fs =>
    if exponent.isZero || base.isOne then evaluateProduct scope product fs
    else do
      let base ← base.evaluate scope
      let exponent ← exponent.evaluate scope
      let product ← product.multiply (evaluatedPower base exponent)
      evaluateProduct scope product fs

/-- A node with the values of the terms added to it. -/
def evaluateSum (scope : Option (Scope α)) (sum : Node α) :
    List (Term α (Node α)) → Checked (Node α)
  | [] => return sum
  | ⟨n, d, fs, gs⟩ :: ts => do
    let above ← evaluateProduct scope (ofValue n) fs
    let below ← evaluateProduct scope (ofValue d) gs
    let sum ← sum.add (evaluatedFraction above below)
    evaluateSum scope sum ts

end

/-! ### One step of evaluation -/

theorem evaluate_power (scope : Option (Scope α)) (f : Factor (Node α)) :
    (Node.power f).evaluate scope =
      (do
        let base ← f.base.evaluate scope
        let exponent ← f.exponent.evaluate scope
        return evaluatedPower base exponent) := by
  rw [evaluate]

theorem evaluate_product (scope : Option (Scope α)) (t : Term α (Node α)) :
    (Node.product t).evaluate scope =
      (do
        let above ← evaluateProduct scope (ofValue t.numerator) t.factors
        let below ← evaluateProduct scope (ofValue t.denominator) t.divisors
        return evaluatedFraction above below) := by
  rw [evaluate]

/-- A factor that is certainly one is passed over. -/
theorem evaluateProduct_one (scope : Option (Scope α)) (product : Node α)
    {f : Factor (Node α)} (one : f.isOne = true) (fs : List (Factor (Node α))) :
    evaluateProduct scope product (f :: fs) = evaluateProduct scope product fs := by
  rw [evaluateProduct]
  exact if_pos one

/-- A factor that counts is evaluated like the node it is, and multiplied. -/
theorem evaluateProduct_cons (scope : Option (Scope α)) (product : Node α)
    {f : Factor (Node α)} (real : f.isOne = false) (fs : List (Factor (Node α))) :
    evaluateProduct scope product (f :: fs) =
      (do evaluateProduct scope (← product.multiply (← (Node.power f).evaluate scope)) fs) := by
  have counts : ¬ (f.exponent.isZero || f.base.isOne) = true := by
    rw [show (f.exponent.isZero || f.base.isOne) = false from real]
    exact Bool.false_ne_true
  rw [evaluateProduct, if_neg counts, evaluate_power]
  simp only [bind_assoc, pure_bind]

/-- The factors that count are multiplied one after the other. -/
theorem evaluateProduct_foldlM (scope : Option (Scope α)) (product : Node α)
    (fs : List (Factor (Node α))) :
    evaluateProduct scope product fs = (realFactors fs).foldlM
      (fun product f => do product.multiply (← (Node.power f).evaluate scope)) product := by
  induction fs generalizing product with
  | nil =>
    rw [evaluateProduct]
    rfl
  | cons f fs ih =>
    by_cases one : f.isOne = true
    · rw [evaluateProduct_one scope product one, ih, realFactors_of_one one]
    · rw [evaluateProduct_cons scope product (by simpa using one), realFactors_of_real one,
        List.foldlM_cons]
      simp only [ih, bind_assoc]

theorem evaluateSum_cons (scope : Option (Scope α)) (sum : Node α) (t : Term α (Node α))
    (ts : List (Term α (Node α))) :
    evaluateSum scope sum (t :: ts) =
      (do evaluateSum scope (← sum.add (← (Node.product t).evaluate scope)) ts) := by
  rw [evaluateSum, evaluate_product]
  simp only [bind_assoc, pure_bind]

/-- The terms are added one after the other. -/
theorem evaluateSum_foldlM (scope : Option (Scope α)) (sum : Node α)
    (ts : List (Term α (Node α))) :
    evaluateSum scope sum ts =
      ts.foldlM (fun sum t => do sum.add (← (Node.product t).evaluate scope)) sum := by
  induction ts generalizing sum with
  | nil =>
    rw [evaluateSum]
    rfl
  | cons t ts ih =>
    rw [evaluateSum_cons, List.foldlM_cons]
    simp only [ih, bind_assoc]

theorem evaluate_sum_cons (scope : Option (Scope α)) (t : Term α (Node α))
    (ts : List (Term α (Node α))) :
    (Node.sum (t :: ts)).evaluate scope =
      (do evaluateSum scope (← (Node.product t).evaluate scope) ts) := by
  rw [evaluate_product, evaluate]
  simp only [bind_assoc, pure_bind]

/-- The value of a plain number or a constant. -/
def scalar? : Node α → Option α
  | .number x => some x
  | .constant c negative => some (if negative then -Scalar.constant c else Scalar.constant c)
  | _ => none

/-- The number an expression without variables stands for; undefined if it holds variables or
does not come down to a number. -/
def toNumber (n : Node α) : Checked α := do
  match n.scalar? with
  | some x => return x
  | none =>
    if n.isConstant then
      match ← n.evaluate (some ⟨[], true⟩) with
      | .number x => return x
      | _ => return Scalar.undefined
    else return Scalar.undefined

end SymbolicAlgebra.Node
