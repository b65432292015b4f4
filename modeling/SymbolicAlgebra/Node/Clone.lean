/-
  Rebuilding
  ==========
  Every term and every sum of a tree built anew from its parts. Factors that are
  certainly one are left behind; apart from them a canonical tree comes back as it
  was.
-/
import SymbolicAlgebra.Node.Sum

namespace SymbolicAlgebra

variable {α : Type} [Scalar α]

namespace Node

mutual

/-- The expression built anew. -/
def clone : Node α → Node α
  | .power ⟨base, exponent⟩ => .power ⟨base.clone, exponent.clone⟩
  | .product ⟨n, d, fs, gs⟩ => .product (Term.normal n d (cloneFactors fs) (cloneFactors gs))
  | .sum ts => .sum (flattenedTerms (cloneTerms ts))
  | .unary f x => .unary f x.clone
  | .binary f x y => .binary f x.clone y.clone
  | n => n

/-- The real factors built anew. -/
def cloneFactors : List (Factor (Node α)) → List (Factor (Node α))
  | [] => []
  | ⟨base, exponent⟩ :: fs =>
    if exponent.isZero || base.isOne then cloneFactors fs
    else ⟨base.clone, exponent.clone⟩ :: cloneFactors fs

/-- The terms built anew. -/
def cloneTerms : List (Term α (Node α)) → List (Term α (Node α))
  | [] => []
  | ⟨n, d, fs, gs⟩ :: ts => Term.normal n d (cloneFactors fs) (cloneFactors gs) :: cloneTerms ts

end

end Node

/-- The term built anew. -/
def Term.clone (t : Term α (Node α)) : Term α (Node α) :=
  Term.normal t.numerator t.denominator (Node.cloneFactors t.factors)
    (Node.cloneFactors t.divisors)

namespace Node

theorem cloneFactors_eq (fs : List (Factor (Node α))) :
    cloneFactors fs = (realFactors fs).map fun f => ⟨f.base.clone, f.exponent.clone⟩ := by
  induction fs with
  | nil => rfl
  | cons f fs ih =>
    obtain ⟨base, exponent⟩ := f
    rw [cloneFactors]
    by_cases one : Factor.isOne ⟨base, exponent⟩ = true
    · rw [realFactors_of_one one, ← ih]
      exact if_pos one
    · rw [realFactors_of_real one, List.map_cons, ← ih]
      exact if_neg one

theorem cloneTerms_eq (ts : List (Term α (Node α))) : cloneTerms ts = ts.map Term.clone := by
  induction ts with
  | nil => rfl
  | cons t ts ih =>
    obtain ⟨n, d, fs, gs⟩ := t
    rw [cloneTerms, ih]
    rfl

end Node

end SymbolicAlgebra
