/-
  Expanding
  =========
  Multiplying out the sums of a product and the whole powers of sums.
-/
import SymbolicAlgebra.Node.Arithmetic

namespace SymbolicAlgebra

variable {α : Type} [Scalar α]

namespace Node

/-- A power with expanded parts: a positive whole power of a sum is multiplied out. -/
def expandedPower (base exponent : Node α) : Checked (Factor (Node α)) :=
  match base, exponent with
  | .sum ts, .number x =>
    if Scalar.isWhole x && Scalar.lt 0 x then
      return ⟨← (Node.sum ts).multiplyRepeatedly (.sum ts) (Scalar.toInt x - 1).toNat, .number 1⟩
    else return ⟨base, exponent⟩
  | _, _ => return ⟨base, exponent⟩

/-- The sums among some factors, and the other factors. -/
def splitSums : List (Factor (Node α)) → List (List (Term α (Node α))) × List (Factor (Node α))
  | [] => ([], [])
  | f :: fs =>
    let (sums, rest) := splitSums fs
    match f.base with
    | .sum ts => if f.isUnit then (ts :: sums, rest) else (sums, f :: rest)
    | _ => (sums, f :: rest)

/-- A term with expanded parts: its sums are multiplied out with everything above the bar. -/
def expandedTerm (numerator denominator : α) (above below : List (Factor (Node α))) :
    Checked (Node α) := do
  match splitSums above with
  | ([], rest) => return .product (Term.normal numerator denominator rest below)
  | (sums, rest) =>
    let start : Node α := .sum (flattenedTerms [Term.normal numerator 1 rest []])
    let product ← sums.foldlM (fun n ts => n.multiply (.sum ts)) start
    if denominator == 1 && below.isEmpty then return product
    return .product (Term.normal 1 denominator [⟨product, .number 1⟩] below)

mutual

/-- The expression with products and powers of sums multiplied out. -/
def expand : Node α → Checked (Node α)
  | .power ⟨base, exponent⟩ => do
    let base ← base.expand
    let exponent ← exponent.expand
    return .power (← expandedPower base exponent)
  | .product ⟨n, d, fs, gs⟩ => do
    let above ← expandFactors fs
    let below ← expandFactors gs
    expandedTerm n d above below
  | .sum ts => do
    let terms ← expandTerms ts
    return .sum (← simplifyTerms (flattened terms))
  | .unary f x => return .unary f (← x.expand)
  | .binary f x y => do
    let x ← x.expand
    let y ← y.expand
    return .binary f x y
  | n => return n

/-- The real factors expanded. -/
def expandFactors : List (Factor (Node α)) → Checked (List (Factor (Node α)))
  | [] => return []
  | ⟨base, exponent⟩ :: fs =>
    if exponent.isZero || base.isOne then expandFactors fs
    else do
      let base ← base.expand
      let exponent ← exponent.expand
      let f ← expandedPower base exponent
      return f :: (← expandFactors fs)

/-- The terms expanded. -/
def expandTerms : List (Term α (Node α)) → Checked (List (Node α))
  | [] => return []
  | ⟨n, d, fs, gs⟩ :: ts => do
    let above ← expandFactors fs
    let below ← expandFactors gs
    let term ← expandedTerm n d above below
    return term :: (← expandTerms ts)

end

end Node

/-- The factor expanded. -/
def Factor.expand (f : Factor (Node α)) : Checked (Factor (Node α)) := do
  Node.expandedPower (← f.base.expand) (← f.exponent.expand)

namespace Node

/-! ### One step of expansion -/

theorem expand_power (f : Factor (Node α)) :
    (Node.power f).expand = (do return .power (← f.expand)) := by
  rw [expand, Factor.expand]
  simp only [bind_assoc]

theorem expand_product (t : Term α (Node α)) :
    (Node.product t).expand =
      (do
        let above ← expandFactors t.factors
        let below ← expandFactors t.divisors
        expandedTerm t.numerator t.denominator above below) := by
  rw [expand]

/-- The factors that count are expanded one after the other. -/
theorem expandFactors_eq (fs : List (Factor (Node α))) :
    expandFactors fs = (realFactors fs).mapM Factor.expand := by
  induction fs with
  | nil =>
    rw [expandFactors]
    rfl
  | cons f fs ih =>
    rw [expandFactors]
    by_cases one : f.isOne = true
    · rw [realFactors_of_one one, ← ih]
      exact if_pos one
    · rw [realFactors_of_real one, List.mapM_cons, ← ih, Factor.expand]
      refine (if_neg one).trans ?_
      simp only [bind_assoc]

/-- The terms are expanded one after the other. -/
theorem expandTerms_eq (ts : List (Term α (Node α))) :
    expandTerms ts = ts.mapM fun t => (Node.product t).expand := by
  induction ts with
  | nil =>
    rw [expandTerms]
    rfl
  | cons t ts ih =>
    rw [expandTerms, List.mapM_cons, ← ih, expand_product]
    simp only [bind_assoc]

end Node

end SymbolicAlgebra
