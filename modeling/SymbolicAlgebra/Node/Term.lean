/-
  Building terms
  ==============
  Every term is built by `Term.normal`, which brings a product into canonical shape:

    * a factor with exponent zero is dropped;
    * a term under the plain exponent one dissolves into its own factors;
    * a factor with a negative exponent crosses the bar;
    * a number raised to a number goes into the coefficient;
    * the minus sign of a variable or a constant under a whole exponent goes into
      the coefficient;
    * the denominator of the coefficient is not below zero.

  What dissolves is put behind what still waits, so the factors of a product come
  first and those of its inner products later.
-/
import SymbolicAlgebra.Node.Equality

namespace SymbolicAlgebra

variable {α : Type} [Scalar α]

/-- The node of a number. -/
def Node.ofValue (x : α) : Node α := .number (Scalar.unsignedZero x)

/-- A node as a factor: itself, or itself to the power of one. -/
def Node.asFactor : Node α → Factor (Node α)
  | .power f => f
  | n => ⟨n, .number 1⟩

namespace Term

/-- The term with its coefficient multiplied by a number above or below the bar. -/
def scale (t : Term α (Node α)) (above : Bool) (x : α) : Term α (Node α) :=
  if above then { t with numerator := t.numerator * x }
  else { t with denominator := t.denominator * x }

/-- The term with one more factor above or below the bar. -/
def push (t : Term α (Node α)) (above : Bool) (f : Factor (Node α)) : Term α (Node α) :=
  if above then { t with factors := t.factors ++ [f] }
  else { t with divisors := t.divisors ++ [f] }

/-- Multiplies the term by a factor whose exponent, if it is a number, is not negative. -/
def multiplyBy (t : Term α (Node α)) (above : Bool) (f : Factor (Node α)) : Term α (Node α) :=
  let unsigned (x : α) (bare : Node α) : Term α (Node α) :=
    let t := if Scalar.isOdd x then { t with numerator := -t.numerator } else t
    t.push above ⟨bare, f.exponent⟩
  match f.base, f.exponent with
  | .number b, .number x => t.scale above (Scalar.power b x)
  | .var v true, .number x => if Scalar.isWhole x then unsigned x (.var v false) else t.push above f
  | .constant c true, .number x =>
    if Scalar.isWhole x then unsigned x (.constant c false) else t.push above f
  | _, _ => t.push above f

/-- Multiplies the term by a factor above or below the bar, or divides by it when the exponent
is a negative number. -/
def absorb (t : Term α (Node α)) (above : Bool) (f : Factor (Node α)) : Term α (Node α) :=
  match f.exponent with
  | .number x =>
    if Scalar.lt x 0 then t.multiplyBy (!above) ⟨f.base, Node.ofValue (-x)⟩ else t.multiplyBy above f
  | _ => t.multiplyBy above f

/-- The real factors of a term with the side of the bar they stand on, when the term itself
stands above or below. -/
def sides (t : Term α (Node α)) (above : Bool) : List (Factor (Node α) × Bool) :=
  t.realFactors.map (·, above) ++ t.realDivisors.map (·, !above)

/-- The term multiplied or divided by the coefficient of another one. -/
def scaleBy (t : Term α (Node α)) (above : Bool) (u : Term α (Node α)) : Term α (Node α) :=
  if above then
    { t with numerator := t.numerator * u.numerator, denominator := t.denominator * u.denominator }
  else
    { t with numerator := t.numerator * u.denominator, denominator := t.denominator * u.numerator }

section Load

-- a sum of whole numbers starts from their own zero, whatever else has one
attribute [local instance (1100)] Zero.ofOfNat0

/-- The size of the factors that wait to be multiplied. -/
def load (pending : List (Factor (Node α) × Bool)) : Nat :=
  (pending.map fun p => (Node.power p.1).size).sum

theorem load_append (ps qs : List (Factor (Node α) × Bool)) : load (ps ++ qs) = load ps + load qs := by
  simp [load]

theorem load_cons (f : Factor (Node α)) (above : Bool) (ps : List (Factor (Node α) × Bool)) :
    load ((f, above) :: ps) = (1 + f.base.size + f.exponent.size) + load ps := by
  simp [load, Node.size]

theorem load_real (fs : List (Factor (Node α))) (above : Bool) :
    load ((SymbolicAlgebra.realFactors fs).map (·, above)) = Node.factorSizes fs := by
  induction fs with
  | nil => rfl
  | cons f fs ih =>
    rw [Node.factorSizes, ← ih]
    by_cases h : f.isOne = true
    · simp [load, SymbolicAlgebra.realFactors, h, show (f.exponent.isZero || f.base.isOne) = true from h]
    · simp only [Bool.not_eq_true] at h
      simp [load, SymbolicAlgebra.realFactors, h,
        show (f.exponent.isZero || f.base.isOne) = false from h, Node.size]

theorem load_sides (t : Term α (Node α)) (above : Bool) :
    load (t.sides above) < (Node.product t).size := by
  rw [sides, load_append, realFactors, realDivisors, load_real, load_real, Node.size]
  omega

end Load

/-- Multiplies the term by the waiting factors, one after the other. -/
def gather (pending : List (Factor (Node α) × Bool)) (t : Term α (Node α)) : Term α (Node α) :=
  match pending with
  | [] => t
  | (⟨base, exponent⟩, above) :: rest =>
    if exponent.isZero then gather rest t
    else if exponent.isUnit then
      match base with
      | .product u => gather (rest ++ u.sides above) (t.scaleBy above u)
      | .sum [u] => gather (rest ++ u.sides above) (t.scaleBy above u)
      | .power f => gather (rest ++ [(f, above)]) t
      | base => gather rest (t.absorb above ⟨base, exponent⟩)
    else gather rest (t.absorb above ⟨base, exponent⟩)
termination_by load pending
decreasing_by
  · rw [load_cons]
    omega
  · have inner := load_sides u above
    rw [load_cons, load_append]
    dsimp only
    omega
  · have inner := load_sides u above
    rw [load_cons, load_append]
    simp only [Node.size, Node.termSizes] at inner ⊢
    omega
  · rw [load_cons, load_append, load_cons]
    simp only [Node.size, load, List.map_nil, List.sum_nil]
    omega
  · rw [load_cons]
    omega
  · rw [load_cons]
    omega

/-- The term with a denominator that is not below zero, and with no empty product. -/
def settled (t : Term α (Node α)) : Term α (Node α) :=
  let fs := if t.factors.isEmpty then [Factor.empty] else t.factors
  let gs := if t.divisors.isEmpty then [Factor.empty] else t.divisors
  if Scalar.lt t.denominator 0 then ⟨-t.numerator, -t.denominator, fs, gs⟩
  else ⟨t.numerator, t.denominator, fs, gs⟩

/-- The canonical term of a coefficient, factors and divisors. -/
def normal (numerator denominator : α) (factors divisors : List (Factor (Node α))) :
    Term α (Node α) :=
  (gather (factors.map (·, true) ++ divisors.map (·, false)) ⟨numerator, denominator, [], []⟩).settled

/-- The canonical term of a coefficient and any nodes above and below the bar. -/
def ofNodes (numerator denominator : α) (above below : List (Node α)) : Term α (Node α) :=
  normal numerator denominator (above.map Node.asFactor) (below.map Node.asFactor)

/-- The canonical term of a number. -/
def ofValue (x : α) : Term α (Node α) := normal x 1 [] []

/-- Any node as a term: a term is itself, and a sum of one term is that term. -/
def wrap : Node α → Term α (Node α)
  | .product t => t
  | .sum [t] => t
  | n => normal 1 1 [n.asFactor] []

/-- The quotient of two nodes. -/
def fraction (above below : Node α) : Term α (Node α) := ofNodes 1 1 [above] [below]

/-- The product of two terms. -/
def times (t u : Term α (Node α)) : Term α (Node α) :=
  normal (t.numerator * u.numerator) (t.denominator * u.denominator)
    (t.realFactors ++ u.realFactors) (t.realDivisors ++ u.realDivisors)

/-- The term with the opposite sign. -/
def negate (t : Term α (Node α)) : Term α (Node α) := t.times (wrap (Node.ofValue (-1)))

end Term

end SymbolicAlgebra
