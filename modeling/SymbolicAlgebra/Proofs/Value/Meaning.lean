/-
  What an expression means
  ========================
  `Node.value` reads an expression as a number of the field, without asking whether
  it has one. `Node.Admitted` says that it has: every variable is bound, nothing is
  divided by zero, every exponent is a whole number, and a base that is zero has no
  negative exponent.

  What else the powers of an expression must obey is a `Discipline`. Under the
  *plain* one every exponent is a number. Under the *stable* one exponents may be
  expressions as well, but then the factors of a term must be *stable*: multiplying
  by one of them adds it to the term as it stands.
-/
import Mathlib.Algebra.BigOperators.Ring.List
import SymbolicAlgebra.Proofs.Value.Exact
import SymbolicAlgebra.Node.Evaluate

namespace SymbolicAlgebra

variable {α : Type} [FieldScalar α]

/-! ### Values -/

namespace Node

mutual

/-- The number the expression stands for, a name without a value standing for zero. -/
def value (s : Scope α) : Node α → α
  | .number x => x
  | .constant c negative => if negative then -Scalar.constant c else Scalar.constant c
  | .var v negative =>
    if negative then -(s.lookup v.name).getD 0 else (s.lookup v.name).getD 0
  | .power ⟨base, exponent⟩ => base.value s ^ Scalar.toInt (exponent.value s)
  | .product ⟨n, d, fs, gs⟩ => n * factorsValue s fs / (d * factorsValue s gs)
  | .sum ts => termsValue s ts
  | .unary f x => Scalar.unary f (x.value s)
  | .binary f x y => Scalar.binary f (x.value s) (y.value s)

/-- The product of some powers. -/
def factorsValue (s : Scope α) : List (Factor (Node α)) → α
  | [] => 1
  | ⟨base, exponent⟩ :: fs =>
    base.value s ^ Scalar.toInt (exponent.value s) * factorsValue s fs

/-- The sum of some terms. -/
def termsValue (s : Scope α) : List (Term α (Node α)) → α
  | [] => 0
  | ⟨n, d, fs, gs⟩ :: ts => n * factorsValue s fs / (d * factorsValue s gs) + termsValue s ts

end

/-- Whether the node is a number, a constant or a variable. -/
def isLeaf : Node α → Bool
  | .number _ => true
  | .constant .. => true
  | .var .. => true
  | _ => false

end Node

namespace Factor

/-- The integer that the exponent stands for. -/
def order (s : Scope α) (f : Factor (Node α)) : ℤ := Scalar.toInt (f.exponent.value s)

/-- The number the power stands for. -/
def value (s : Scope α) (f : Factor (Node α)) : α := f.base.value s ^ f.order s

/-- Multiplying a term by the factor adds the factor to the term as it stands. -/
def Stable (f : Factor (Node α)) : Prop :=
  ∀ (above : Bool) (rest : List (Factor (Node α) × Bool)) (t : Term α (Node α)),
    Term.gather ((f, above) :: rest) t = Term.gather rest (t.push above f)

end Factor

/-- The number the term stands for. -/
def Term.value (s : Scope α) (t : Term α (Node α)) : α := (Node.product t).value s

section Values

variable (s : Scope α)

theorem Node.value_power (f : Factor (Node α)) : (Node.power f).value s = f.value s := by
  rw [Node.value]
  rfl

theorem Node.value_product (t : Term α (Node α)) : (Node.product t).value s = t.value s := rfl

theorem Factor.value_of_order {f : Factor (Node α)} (zero : f.order s = 0) : f.value s = 1 := by
  rw [Factor.value, zero, zpow_zero]

end Values

namespace Node

variable {s : Scope α}

theorem factorsValue_eq (fs : List (Factor (Node α))) :
    factorsValue s fs = (fs.map (Factor.value s)).prod := by
  induction fs with
  | nil => rfl
  | cons f fs ih =>
    rw [factorsValue, ih]
    rfl

@[simp] theorem factorsValue_nil : factorsValue s ([] : List (Factor (Node α))) = 1 := rfl

@[simp] theorem factorsValue_cons (f : Factor (Node α)) (fs : List (Factor (Node α))) :
    factorsValue s (f :: fs) = f.value s * factorsValue s fs := rfl

@[simp] theorem factorsValue_append (fs gs : List (Factor (Node α))) :
    factorsValue s (fs ++ gs) = factorsValue s fs * factorsValue s gs := by
  rw [factorsValue_eq, factorsValue_eq, factorsValue_eq, List.map_append, List.prod_append]

theorem factorsValue_perm {fs gs : List (Factor (Node α))} (same : fs.Perm gs) :
    factorsValue s fs = factorsValue s gs := by
  rw [factorsValue_eq, factorsValue_eq, (same.map _).prod_eq]

theorem factorsValue_eq_one {fs : List (Factor (Node α))} (ones : ∀ f ∈ fs, f.value s = 1) :
    factorsValue s fs = 1 := by
  rw [factorsValue_eq]
  refine List.prod_eq_one fun x hx => ?_
  obtain ⟨f, hf, rfl⟩ := List.mem_map.1 hx
  exact ones f hf

theorem factorsValue_eq_zero {fs : List (Factor (Node α))} :
    factorsValue s fs = 0 ↔ ∃ f ∈ fs, f.value s = 0 := by
  rw [factorsValue_eq, List.prod_eq_zero_iff, List.mem_map]

/-- Factors that are replaced one by one keep their product. -/
theorem factorsValue_related {P : Factor (Node α) → Prop} {fs gs : List (Factor (Node α))}
    (related : List.Forall₂ (fun f g => P g ∧ g.value s = f.value s) fs gs) :
    (∀ g ∈ gs, P g) ∧ factorsValue s gs = factorsValue s fs := by
  induction related with
  | nil => exact ⟨List.forall_mem_nil _, rfl⟩
  | cons head tail ih =>
    refine ⟨List.forall_mem_cons.2 ⟨head.1, ih.1⟩, ?_⟩
    rw [factorsValue_cons, factorsValue_cons, head.2, ih.2]

theorem factorsValue_ne_zero {fs : List (Factor (Node α))} (nonzero : ∀ f ∈ fs, f.value s ≠ 0) :
    factorsValue s fs ≠ 0 := by
  rw [Ne, factorsValue_eq_zero]
  rintro ⟨f, hf, zero⟩
  exact nonzero f hf zero

end Node

theorem Term.value_eq (s : Scope α) (t : Term α (Node α)) :
    t.value s = t.numerator * Node.factorsValue s t.factors /
      (t.denominator * Node.factorsValue s t.divisors) := by
  rw [Term.value, Node.value]

namespace Node

variable {s : Scope α}

theorem termsValue_eq (ts : List (Term α (Node α))) :
    termsValue s ts = (ts.map (Term.value s)).sum := by
  induction ts with
  | nil => rfl
  | cons t ts ih =>
    rw [termsValue, ih, List.map_cons, List.sum_cons, Term.value_eq]

@[simp] theorem termsValue_nil : termsValue s ([] : List (Term α (Node α))) = 0 := rfl

@[simp] theorem termsValue_cons (t : Term α (Node α)) (ts : List (Term α (Node α))) :
    termsValue s (t :: ts) = t.value s + termsValue s ts := by
  rw [termsValue_eq, termsValue_eq, List.map_cons, List.sum_cons]

@[simp] theorem termsValue_append (ts us : List (Term α (Node α))) :
    termsValue s (ts ++ us) = termsValue s ts + termsValue s us := by
  rw [termsValue_eq, termsValue_eq, termsValue_eq, List.map_append, List.sum_append]

theorem termsValue_perm {ts us : List (Term α (Node α))} (same : ts.Perm us) :
    termsValue s ts = termsValue s us := by
  rw [termsValue_eq, termsValue_eq, (same.map _).sum_eq]

theorem value_sum (ts : List (Term α (Node α))) : (Node.sum ts).value s = termsValue s ts := by
  rw [value]

end Node

/-! ### Expressions that have a value -/

/-- What the powers of an expression obey besides having a value. -/
inductive Discipline where
  | plain
  | stable
deriving DecidableEq

namespace Discipline

/-- What may stand in an exponent. -/
def Exponent : Discipline → Node α → Prop
  | plain, e => e.isNumber = true
  | stable, _ => True

/-- What a power obeys while a term is simplified. -/
def Kept (s : Scope α) : Discipline → Factor (Node α) → Prop
  | plain, _ => True
  | stable, f => f.base.isLeaf = true ∨ 0 ≤ f.order s

/-- What a power obeys when it stands by itself. A power of zero to a hidden zero is ruled out,
because only a plain zero shows that the power is one. -/
def Raised (s : Scope α) : Discipline → Factor (Node α) → Prop
  | plain, _ => True
  | stable, f =>
    (f.base.isLeaf = true ∨ 0 ≤ f.order s ∨ f.exponent.isNumber = true ∧ f.order s ≠ -1) ∧
      (f.base.value s = 0 → f.order s = 0 → f.exponent.isNumber = true)

/-- What a power obeys when it is a factor of a term. -/
def Listed (s : Scope α) : Discipline → Factor (Node α) → Prop
  | plain, _ => True
  | stable, f => (f.base.isLeaf = true ∨ 0 ≤ f.order s) ∧ f.Stable

end Discipline

/-- The power has a value and obeys the discipline. -/
structure Factor.Defined (D : Discipline) (s : Scope α) (f : Factor (Node α)) : Prop where
  whole : Scalar.isWhole (f.exponent.value s) = true
  defined : f.base.value s = 0 → 0 ≤ f.order s
  exponent : D.Exponent f.exponent
  raised : D.Raised s f

/-- The expression and everything in it has a value, and its powers obey the discipline. -/
inductive Node.Admitted (D : Discipline) (s : Scope α) : Node α → Prop
  | number (x : α) : Node.Admitted D s (.number x)
  | constant (c : Constant) (negative : Bool) (collapsed : s.collapseConstants = true) :
    Node.Admitted D s (.constant c negative)
  | var (v : Variable) (negative : Bool) (x : α) (bound : s.get v.name = .ok (some x)) :
    Node.Admitted D s (.var v negative)
  | power (f : Factor (Node α)) (base : Node.Admitted D s f.base)
    (exponent : Node.Admitted D s f.exponent) (defined : f.Defined D s) :
    Node.Admitted D s (.power f)
  | product (t : Term α (Node α)) (denominator : t.denominator ≠ 0)
    (factors : ∀ f ∈ t.factors, Node.Admitted D s (.power f))
    (divisors : ∀ f ∈ t.divisors, Node.Admitted D s (.power f))
    (nonzero : ∀ f ∈ t.divisors, f.value s ≠ 0)
    (above : ∀ f ∈ t.realFactors, D.Listed s f) (below : ∀ f ∈ t.realDivisors, D.Listed s f) :
    Node.Admitted D s (.product t)
  | sum (ts : List (Term α (Node α))) (terms : ∀ t ∈ ts, Node.Admitted D s (.product t)) :
    Node.Admitted D s (.sum ts)
  | unary (f : Unary) (x : Node α) (argument : Node.Admitted D s x) :
    Node.Admitted D s (.unary f x)
  | binary (f : Binary) (x y : Node α) (left : Node.Admitted D s x) (right : Node.Admitted D s y) :
    Node.Admitted D s (.binary f x y)

/-- The power is admitted as a node. -/
def Factor.Admitted (D : Discipline) (s : Scope α) (f : Factor (Node α)) : Prop :=
  (Node.power f).Admitted D s

/-- The term is admitted as a node. -/
def Term.Admitted (D : Discipline) (s : Scope α) (t : Term α (Node α)) : Prop :=
  (Node.product t).Admitted D s

variable {D : Discipline} {s : Scope α}

namespace Factor

variable {f : Factor (Node α)}

theorem Defined.visible (h : f.Defined D s) (zero : f.base.value s = 0) (order : f.order s = 0) :
    f.exponent.isNumber = true := by
  cases D with
  | plain => exact h.exponent
  | stable => exact h.raised.2 zero order

theorem admitted_iff : f.Admitted D s ↔
    f.base.Admitted D s ∧ f.exponent.Admitted D s ∧ f.Defined D s := by
  constructor
  · intro h
    cases h with
    | power _ base exponent defined => exact ⟨base, exponent, defined⟩
  · rintro ⟨base, exponent, defined⟩
    exact .power f base exponent defined

theorem Admitted.base (h : f.Admitted D s) : f.base.Admitted D s := (admitted_iff.1 h).1

theorem Admitted.exponent (h : f.Admitted D s) : f.exponent.Admitted D s := (admitted_iff.1 h).2.1

theorem Admitted.defined (h : f.Admitted D s) : f.Defined D s := (admitted_iff.1 h).2.2

end Factor

namespace Term

variable {t : Term α (Node α)}

theorem admitted_iff : t.Admitted D s ↔
    t.denominator ≠ 0 ∧ (∀ f ∈ t.factors, f.Admitted D s) ∧ (∀ f ∈ t.divisors, f.Admitted D s) ∧
      (∀ f ∈ t.divisors, f.value s ≠ 0) ∧ (∀ f ∈ t.realFactors, D.Listed s f) ∧
        ∀ f ∈ t.realDivisors, D.Listed s f := by
  constructor
  · intro h
    cases h with
    | product _ denominator factors divisors nonzero above below =>
      exact ⟨denominator, factors, divisors, nonzero, above, below⟩
  · rintro ⟨denominator, factors, divisors, nonzero, above, below⟩
    exact .product t denominator factors divisors nonzero above below

namespace Admitted

variable (h : t.Admitted D s)

include h

theorem denominator : t.denominator ≠ 0 := (admitted_iff.1 h).1

theorem factors : ∀ f ∈ t.factors, f.Admitted D s := (admitted_iff.1 h).2.1

theorem divisors : ∀ f ∈ t.divisors, f.Admitted D s := (admitted_iff.1 h).2.2.1

theorem nonzero : ∀ f ∈ t.divisors, f.value s ≠ 0 := (admitted_iff.1 h).2.2.2.1

theorem above : ∀ f ∈ t.realFactors, D.Listed s f := (admitted_iff.1 h).2.2.2.2.1

theorem below : ∀ f ∈ t.realDivisors, D.Listed s f := (admitted_iff.1 h).2.2.2.2.2

end Admitted

end Term

theorem Term.mem_factors {t : Term α (Node α)} {f : Factor (Node α)} (real : f ∈ t.realFactors) :
    f ∈ t.factors :=
  (List.mem_filter.1 real).1

theorem Term.mem_divisors {t : Term α (Node α)} {f : Factor (Node α)}
    (real : f ∈ t.realDivisors) : f ∈ t.divisors :=
  (List.mem_filter.1 real).1

theorem Node.admitted_sum {ts : List (Term α (Node α))} :
    (Node.sum ts).Admitted D s ↔ ∀ t ∈ ts, t.Admitted D s := by
  constructor
  · intro h
    cases h with
    | sum _ terms => exact terms
  · intro terms
    exact .sum ts terms

end SymbolicAlgebra
