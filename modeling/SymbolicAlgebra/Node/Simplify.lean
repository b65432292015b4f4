/-
  Simplifying and adding
  ======================
  Simplifying merges equal bases of a product by adding their exponents, cancels
  them across the bar, and merges the like terms of a sum. Adding exponents is
  itself an addition of expressions, and adding expressions ends in simplifying a
  sum: the two recursions call each other.

  They come to rest because exponents are added one level of exponents further down
  (`Node.level`), and within a level simplifying walks down bases and arguments only
  (`Node.depth`). `exponentRules` climbs the levels, `simplifyAt` the depth within
  one. At depth zero there is nothing left to simplify, and at level zero every
  exponent is a plain number, whose addition calls nothing.
-/
import SymbolicAlgebra.Node.Reduce
import SymbolicAlgebra.Node.Clone

namespace SymbolicAlgebra

variable {α : Type} [Scalar α]

/-- What simplifying a product needs to know of its exponents. -/
structure ExponentRules (α : Type) where
  /-- The sum of two exponents. -/
  add : Node α → Node α → Checked (Node α)
  /-- The exponent simplified and then reduced. -/
  tidy : Node α → Checked (Node α)

/-! ### Fractions of terms -/

namespace Term

/-- The term over a common denominator: the factors of the tally that its own denominator lacks
are multiplied into both of its sides. -/
def overShared (t : Term α (Node α)) (shared : Tally (Factor (Node α))) : Term α (Node α) :=
  let lacking := shared.excess Factor.same (Tally.ofList Factor.same t.realDivisors)
  if lacking.isEmpty then t
  else normal t.numerator t.denominator (t.realFactors ++ lacking) (t.realDivisors ++ lacking)

/-- The sum of two like terms: the coefficients are added as fractions. -/
def combine (t u : Term α (Node α)) : Checked (Term α (Node α)) := do
  let (n, d) ← Scalar.reduceFraction
    (t.numerator * u.denominator + u.numerator * t.denominator) (t.denominator * u.denominator)
  return normal n d t.realFactors t.realDivisors

end Term

namespace Node

/-! ### Simplifying products -/

/-- Simplifies a factor. A power of two numbers is worked out unless a whole number would
become a fraction. -/
def simplifyFactor (rules : ExponentRules α) (simplify : Node α → Checked (Node α))
    (f : Factor (Node α)) : Checked (Factor (Node α)) := do
  let base := (← simplify f.base).reduce
  let exponent ← rules.tidy f.exponent
  if exponent.isZero then return Factor.empty
  match base, exponent with
  | .number b, .number x =>
    let value := Scalar.power b x
    if Scalar.isWhole value || !Scalar.isWhole b then return ⟨ofValue value, .number 1⟩
    else return ⟨base, exponent⟩
  | _, _ => return ⟨base, exponent⟩

/-- Adds a factor to factors with different bases: the exponents of equal bases are added. -/
def collectOne (rules : ExponentRules α) (f : Factor (Node α)) :
    List (Factor (Node α)) → Checked (List (Factor (Node α)))
  | [] => return [f]
  | g :: gs =>
    if g.base.sameSigned f.base then return ⟨g.base, ← rules.add g.exponent f.exponent⟩ :: gs
    else return g :: (← collectOne rules f gs)

/-- The factors with every base once. -/
def collect (rules : ExponentRules α) (fs : List (Factor (Node α))) :
    Checked (List (Factor (Node α))) :=
  fs.foldlM (fun grouped f => collectOne rules f grouped) []

/-- What is left of a factor and of the divisors when equal bases with plain numbers as
exponents cancel. -/
def cancelOne (f : Factor (Node α)) (gs : List (Factor (Node α))) :
    Option (Factor (Node α)) × List (Factor (Node α)) :=
  match gs with
  | [] => (some f, [])
  | g :: gs =>
    if g.base.sameSigned f.base then
      match f.exponent, g.exponent with
      | .number x, .number y =>
        if Scalar.lt y x then (some ⟨f.base, ofValue (x - y)⟩, gs)
        else if Scalar.lt x y then (none, ⟨g.base, ofValue (y - x)⟩ :: gs)
        else (none, gs)
      | _, _ => (some f, g :: gs)
    else
      let (rest, left) := cancelOne f gs
      (rest, g :: left)

/-- Cancels equal bases across the bar. -/
def cancel (fs gs : List (Factor (Node α))) : List (Factor (Node α)) × List (Factor (Node α)) :=
  match fs with
  | [] => ([], gs)
  | f :: fs =>
    let (kept, gs) := cancelOne f gs
    let (rest, gs) := cancel fs gs
    (kept.toList ++ rest, gs)

/-- The factors with their exponents simplified and reduced. -/
def tidyExponents (rules : ExponentRules α) (fs : List (Factor (Node α))) :
    Checked (List (Factor (Node α))) :=
  fs.mapM fun f => return ⟨f.base, ← rules.tidy f.exponent⟩

/-- Simplifies a term: equal bases are merged and cancelled, the coefficient is brought to
lowest terms. -/
def simplifyTerm (rules : ExponentRules α) (simplify : Node α → Checked (Node α))
    (t : Term α (Node α)) : Checked (Term α (Node α)) := do
  let above ← collect rules (← t.realFactors.mapM (simplifyFactor rules simplify))
  let below ← collect rules (← t.realDivisors.mapM (simplifyFactor rules simplify))
  let (above, below) := cancel above below
  let term := Term.normal t.numerator t.denominator (← tidyExponents rules above)
    (← tidyExponents rules below)
  if term.isZero then return Term.zero
  let (n, d) ← Scalar.reduceFraction term.numerator term.denominator
  return Term.normal n d term.realFactors term.realDivisors

/-! ### Simplifying sums -/

/-- Adds a term to terms of which no two are like: like terms are combined. -/
def mergeOne (simplify : Term α (Node α) → Checked (Term α (Node α))) (t : Term α (Node α)) :
    List (Term α (Node α)) → Checked (List (Term α (Node α)))
  | [] => return [t]
  | u :: us =>
    if u.isLike t then return (← simplify (← u.combine t)) :: us
    else return u :: (← mergeOne simplify t us)

/-- Simplifies every term of a sum and merges the like ones. -/
def simplifySum (simplify : Term α (Node α) → Checked (Term α (Node α)))
    (ts : List (Term α (Node α))) : Checked (List (Term α (Node α))) := do
  let merged ← ts.foldlM (fun merged t => do mergeOne simplify (← simplify t) merged) []
  return flattenedTerms merged

/-- Simplifies the tree down to the given depth. -/
def simplifyAt (rules : ExponentRules α) : Nat → Node α → Checked (Node α)
  | 0, n => .ok n
  | depth + 1, n =>
    match n with
    | .power f => return .power (← simplifyFactor rules (simplifyAt rules depth) f)
    | .product t => return .product (← simplifyTerm rules (simplifyAt rules depth) t)
    | .sum ts => return .sum (← simplifySum (simplifyTerm rules (simplifyAt rules depth)) ts)
    | .unary f x => return .unary f (← simplifyAt rules depth x)
    | .binary f x y => return .binary f (← simplifyAt rules depth x) (← simplifyAt rules depth y)
    | n => .ok n

/-! ### Adding -/

/-- The terms that a node adds to a sum. -/
def addends : Node α → List (Term α (Node α))
  | .sum ts => ts
  | n => [Term.wrap n]

/-- The sum of two terms, given how sums are simplified: like terms are combined, others are
put over their common denominator. -/
def addTerms (simplify : List (Term α (Node α)) → Checked (List (Term α (Node α))))
    (t u : Term α (Node α)) : Checked (Node α) :=
  if u.isZero then .ok (.product t.clone)
  else if t.isZero then .ok (.product u.clone)
  else do
    let shared := (Tally.ofList Factor.same t.realDivisors).union Factor.same
      (Tally.ofList Factor.same u.realDivisors)
    let left := t.overShared shared
    let right := u.overShared shared
    if left.isLike right then return .product (← left.combine right)
    let above ← simplify (flattenedTerms
      [Term.normal left.numerator left.denominator left.realFactors [],
        Term.normal right.numerator right.denominator right.realFactors []])
    if left.realDivisors.isEmpty then return .sum above
    return .product (Term.normal 1 1 [⟨.sum above, .number 1⟩] left.realDivisors)

/-- The sum of two nodes, given how sums are simplified. -/
def addWith (simplify : List (Term α (Node α)) → Checked (List (Term α (Node α)))) :
    Node α → Node α → Checked (Node α)
  | .number x, .number y => .ok (ofValue (x + y))
  | .sum ts, n => return .sum (← simplify (flattenedTerms (ts ++ addends n)))
  | m, .sum us => return .sum (← simplify (flattenedTerms (flattened [m] ++ us)))
  | m, n => addTerms simplify (Term.wrap m) (Term.wrap n)

/-! ### The levels of exponents -/

/-- Simplifies a sum whose exponents obey the rules. -/
def simplifySumWith (rules : ExponentRules α) (ts : List (Term α (Node α))) :
    Checked (List (Term α (Node α))) :=
  simplifySum (simplifyTerm rules (simplifyAt rules (Node.sum ts).depth)) ts

/-- The rules for exponents below the given level. -/
def exponentRules : Nat → ExponentRules α
  | 0 => { add := addWith .ok, tidy := fun n => .ok n.reduce }
  | level + 1 =>
    let lower := exponentRules level
    { add := addWith (simplifySumWith lower)
      tidy := fun n => return (← simplifyAt lower n.depth n).reduce }

/-- The expression with like terms merged and equal bases collected. -/
def simplify (n : Node α) : Checked (Node α) :=
  simplifyAt (exponentRules n.level) n.depth n

/-- The terms of a sum, simplified and merged. -/
def simplifyTerms (ts : List (Term α (Node α))) : Checked (List (Term α (Node α))) :=
  simplifySumWith (exponentRules (Node.sum ts).level) ts

/-- The sum of two expressions. -/
def add (m n : Node α) : Checked (Node α) := addWith simplifyTerms m n

end Node

end SymbolicAlgebra
