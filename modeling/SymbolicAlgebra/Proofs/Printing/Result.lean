/-
  What an expression comes to
  ===========================
  `Node.result` computes an expression with any powers, whole or not, where
  `Node.value` knows whole exponents only. Factors that are certainly one are passed
  over, as they are by evaluation and by the printer. `Node.Computable` says that every
  part that counts has a result: names are bound and are not taken for a constant, nothing
  is divided by zero, and zero is raised to nothing below zero, nor to a zero that is not
  written as the number.

  Of powers no more is asked than that they are lawful (`LawfulScalar`). Then a
  computable expression evaluates to its result: **`Node.evaluate_result`**.
-/
import Mathlib.Algebra.BigOperators.Ring.List
import SymbolicAlgebra.Proofs.Checked
import SymbolicAlgebra.Proofs.Value.Exact
import SymbolicAlgebra.Node.Evaluate

namespace SymbolicAlgebra

/-- Scalars whose powers obey the laws of exponents: for the exponents zero and one, the bases zero
and one, opposite exponents and opposite bases. A remainder has the sign of what is divided. -/
class LawfulScalar (α : Type) [FieldScalar α] : Prop where
  power_zero : ∀ b : α, Scalar.power b 0 = 1
  power_one : ∀ b : α, Scalar.power b 1 = b
  one_power : ∀ x : α, Scalar.power 1 x = 1
  zero_power : ∀ x : α, x ≠ 0 → Scalar.lt x 0 = false → Scalar.power 0 x = 0
  neg_power : ∀ b x : α, Scalar.isWhole x = true →
    Scalar.power (-b) x = if Scalar.isOdd x then -Scalar.power b x else Scalar.power b x
  power_neg_mul : ∀ b x : α, b ≠ 0 → (Scalar.lt b 0 = true → Scalar.isWhole x = true) →
    Scalar.power b (-x) * Scalar.power b x = 1
  isWhole_one : Scalar.isWhole (1 : α) = true
  isWhole_neg : ∀ x : α, Scalar.isWhole x = true → Scalar.isWhole (-x) = true
  neg_remainder : ∀ x y : α, Scalar.binary .remainder (-x) y = -Scalar.binary .remainder x y
  one_lt_zero : Scalar.lt (1 : α) 0 = false

variable {α : Type} [FieldScalar α]

/-- A number with a minus sign or without. -/
def signed (negative : Bool) (x : α) : α := if negative then -x else x

/-! ### Results -/

namespace Node

mutual

/-- The number the expression comes to, a name without a value counting as zero. -/
def result (s : Scope α) : Node α → α
  | .number x => x
  | .constant c negative => signed negative (Scalar.constant c)
  | .var v negative => signed negative ((s.lookup v.name).getD 0)
  | .power ⟨base, exponent⟩ => Scalar.power (base.result s) (exponent.result s)
  | .product ⟨n, d, fs, gs⟩ => n * factorsResult s fs / (d * factorsResult s gs)
  | .sum ts => termsResult s ts
  | .unary f x => Scalar.unary f (x.result s)
  | .binary f x y => Scalar.binary f (x.result s) (y.result s)

/-- The product of the powers that are not certainly one. -/
def factorsResult (s : Scope α) : List (Factor (Node α)) → α
  | [] => 1
  | ⟨base, exponent⟩ :: fs =>
    if exponent.isZero || base.isOne then factorsResult s fs
    else Scalar.power (base.result s) (exponent.result s) * factorsResult s fs

/-- The sum of some terms. -/
def termsResult (s : Scope α) : List (Term α (Node α)) → α
  | [] => 0
  | ⟨n, d, fs, gs⟩ :: ts => n * factorsResult s fs / (d * factorsResult s gs) + termsResult s ts

end

end Node

/-- The number the power comes to. -/
def Factor.result (s : Scope α) (f : Factor (Node α)) : α := (Node.power f).result s

/-- The number the term comes to. -/
def Term.result (s : Scope α) (t : Term α (Node α)) : α := (Node.product t).result s

variable {s : Scope α}

theorem Factor.result_eq (f : Factor (Node α)) :
    f.result s = Scalar.power (f.base.result s) (f.exponent.result s) := by
  rw [Factor.result, Node.result]

theorem Node.factorsResult_eq (fs : List (Factor (Node α))) :
    factorsResult s fs = ((realFactors fs).map (Factor.result s)).prod := by
  induction fs with
  | nil => rfl
  | cons f fs ih =>
    rw [factorsResult, ih]
    by_cases one : f.isOne = true
    · rw [realFactors_of_one one]
      exact if_pos one
    · rw [realFactors_of_real one, List.map_cons, List.prod_cons, Factor.result_eq]
      exact if_neg one

/-- A term comes to what its real factors come to. -/
theorem Term.result_eq (t : Term α (Node α)) :
    t.result s = t.numerator * (t.realFactors.map (Factor.result s)).prod /
      (t.denominator * (t.realDivisors.map (Factor.result s)).prod) := by
  rw [Term.result, Node.result, Node.factorsResult_eq, Node.factorsResult_eq]
  rfl

theorem Node.result_sum (ts : List (Term α (Node α))) :
    (Node.sum ts).result s = (ts.map (Term.result s)).sum := by
  rw [Node.result]
  induction ts with
  | nil => rfl
  | cons t ts ih =>
    rw [termsResult, ih, List.map_cons, List.sum_cons, Term.result, Node.result]

/-! ### Expressions that have a result -/

/-- Zero is raised to nothing below zero, and to zero only where that is the number itself;
numbers below zero are raised to whole numbers. -/
structure Factor.Raises (s : Scope α) (f : Factor (Node α)) : Prop where
  defined : f.base.result s = 0 → Scalar.lt (f.exponent.result s) 0 = false
  real : Scalar.lt (f.base.result s) 0 = true → Scalar.isWhole (f.exponent.result s) = true
  visible : f.base.result s = 0 → f.exponent.result s = 0 → f.exponent.isNumber = true

/-- Every part of the expression that counts has a result. -/
inductive Node.Computable (s : Scope α) : Node α → Prop
  | number (x : α) : Computable s (.number x)
  | constant (c : Constant) (negative : Bool) (collapsed : s.collapseConstants = true) :
      Computable s (.constant c negative)
  | var (v : Variable) (negative : Bool) (x : α) (bound : s.get v.name = .ok (some x))
      (other : Constant.ofSymbol? v.name = none) : Computable s (.var v negative)
  | power (f : Factor (Node α)) (base : Computable s f.base) (exponent : Computable s f.exponent)
      (raises : f.Raises s) : Computable s (.power f)
  | product (t : Term α (Node α)) (denominator : t.denominator ≠ 0)
      (factors : ∀ f ∈ t.realFactors, Computable s (.power f))
      (divisors : ∀ g ∈ t.realDivisors, Computable s (.power g))
      (nonzero : ∀ g ∈ t.realDivisors, g.result s ≠ 0) : Computable s (.product t)
  | sum (ts : List (Term α (Node α))) (terms : ∀ t ∈ ts, Computable s (.product t)) :
      Computable s (.sum ts)
  | unary (f : Unary) (x : Node α) (argument : Computable s x) : Computable s (.unary f x)
  | binary (f : Binary) (x y : Node α) (left : Computable s x) (right : Computable s y) :
      Computable s (.binary f x y)

/-- Both parts of the power have a result, and so has the power. -/
def Factor.Computable (s : Scope α) (f : Factor (Node α)) : Prop := (Node.power f).Computable s

/-- Every real factor of the term has a result, and nothing is divided by zero. -/
def Term.Computable (s : Scope α) (t : Term α (Node α)) : Prop := (Node.product t).Computable s

theorem Factor.computable_iff {f : Factor (Node α)} :
    f.Computable s ↔ f.base.Computable s ∧ f.exponent.Computable s ∧ f.Raises s := by
  constructor
  · intro h
    cases h with
    | power _ base exponent raises => exact ⟨base, exponent, raises⟩
  · rintro ⟨base, exponent, raises⟩
    exact .power f base exponent raises

theorem Term.computable_iff {t : Term α (Node α)} :
    t.Computable s ↔ t.denominator ≠ 0 ∧ (∀ f ∈ t.realFactors, f.Computable s) ∧
      (∀ g ∈ t.realDivisors, g.Computable s) ∧ ∀ g ∈ t.realDivisors, g.result s ≠ 0 := by
  constructor
  · intro h
    cases h with
    | product _ denominator factors divisors nonzero =>
      exact ⟨denominator, factors, divisors, nonzero⟩
  · rintro ⟨denominator, factors, divisors, nonzero⟩
    exact .product t denominator factors divisors nonzero

theorem Node.computable_sum {ts : List (Term α (Node α))} :
    (Node.sum ts).Computable s ↔ ∀ t ∈ ts, t.Computable s := by
  constructor
  · intro h
    cases h with
    | sum _ terms => exact terms
  · exact .sum ts

/-! ### What shows that it is one or zero -/

variable [LawfulScalar α]

namespace Node

/-- What is certainly one comes to one, and what is certainly zero comes to zero. -/
theorem result_of_shown {n : Node α} (h : n.Computable s) :
    (n.isOne = true → n.result s = 1) ∧ (n.isZero = true → n.result s = 0) := by
  induction h with
  | number x => simp [isOne, isZero, result]
  | constant c negative collapsed => simp [isOne, isZero]
  | var v negative x bound other => simp [isOne, isZero]
  | power f base exponent raises ihb ihe =>
    rw [isOne, isZero, show (Node.power f).result s = f.result s from rfl, Factor.result_eq]
    constructor
    · intro shown
      rcases (Bool.or_eq_true _ _).mp shown with zero | one
      · rw [ihe.2 zero, LawfulScalar.power_zero]
      · rw [ihb.1 one, LawfulScalar.one_power]
    · intro shown
      simp only [Bool.and_eq_true, Bool.not_eq_true'] at shown
      obtain ⟨positive, zero⟩ := shown
      have vanishes := ihb.2 zero
      rw [vanishes]
      refine LawfulScalar.zero_power _ (fun order => ?_) (raises.defined vanishes)
      have number := raises.visible vanishes order
      obtain ⟨b, e⟩ := f
      cases e <;> simp_all [isNumber, isZero, result]
  | product t denominator factors divisors nonzero ihf ihd =>
    rw [show (Node.product t).result s = t.result s from rfl, Term.result_eq]
    constructor
    · intro shown
      rw [isOne, allOne_eq, allOne_eq] at shown
      simp only [Bool.and_eq_true, beq_iff_eq, List.all_eq_true] at shown
      obtain ⟨⟨same, ones⟩, others⟩ := shown
      have none : ∀ {fs : List (Factor (Node α))}, (∀ f ∈ fs, f.isOne = true) →
          realFactors fs = [] := by
        intro fs all
        refine List.filter_eq_nil_iff.2 fun f hf => ?_
        simp [all f hf]
      rw [Term.realFactors, Term.realDivisors, none ones, none others, same, List.map_nil,
        List.prod_nil, div_self]
      simpa using denominator
    · intro shown
      rw [isZero, someZero_eq] at shown
      simp only [Bool.and_eq_true, Bool.or_eq_true, beq_iff_eq, List.any_eq_true] at shown
      rcases shown.2 with zero | ⟨f, real, zero⟩
      · rw [zero, zero_mul, zero_div]
      · have vanishes : f.result s = 0 := (ihf f real).2 zero
        have whole : (t.realFactors.map (Factor.result s)).prod = 0 :=
          List.prod_eq_zero (List.mem_map.2 ⟨f, real, vanishes⟩)
        rw [whole, mul_zero, zero_div]
  | sum ts terms ih =>
    rw [result_sum]
    rcases ts with _ | ⟨t, _ | ⟨u, us⟩⟩
    · simp [isOne, isZero]
    · have single := ih t List.mem_cons_self
      rw [show (Node.product t).result s = t.result s from rfl] at single
      rwa [List.map_cons, List.map_nil, List.sum_cons, List.sum_nil, add_zero]
    · simp [isOne, isZero]
  | unary f x argument ih => simp [isOne, isZero]
  | binary f x y left right ihx ihy => simp [isOne, isZero]

omit [LawfulScalar α] in
theorem result_unit {n : Node α} (unit : n.isUnit = true) : n.result s = 1 := by
  cases n with
  | number x => rw [result, eq_of_beq unit]
  | _ => cases unit

/-! ### Evaluating -/

theorem evaluatedPower_result (b x : α) :
    evaluatedPower (.number b) (.number x) = .number (Scalar.power b x) := by
  unfold evaluatedPower
  dsimp only
  split
  · rename_i zero
    rw [eq_of_beq zero, LawfulScalar.power_zero]
  · split
    · rename_i one
      rw [eq_of_beq one, LawfulScalar.power_one]
    · rw [FieldScalar.ofValue_eq]

omit [LawfulScalar α] in
theorem evaluatedFraction_result (n : α) {d : α} (nonzero : d ≠ 0) :
    evaluatedFraction (.number n) (.number d) = .number (n / d) := by
  unfold evaluatedFraction
  dsimp only
  rw [if_neg (by simpa using nonzero), FieldScalar.ofValue_eq, FieldScalar.quotient_eq nonzero]

omit [LawfulScalar α] in
/-- Multiplying by the real factors, each of which evaluates to its result. -/
theorem evaluateProduct_result {fs : List (Factor (Node α))}
    (each : ∀ f ∈ realFactors fs, (Node.power f).evaluate (some s) = .ok (.number (f.result s)))
    (x : α) : evaluateProduct (some s) (.number x) fs =
      .ok (.number (x * ((realFactors fs).map (Factor.result s)).prod)) := by
  rw [evaluateProduct_foldlM]
  generalize realFactors fs = real at each ⊢
  induction real generalizing x with
  | nil => simp [pure, Except.pure]
  | cons f fs ih =>
    obtain ⟨first, rest⟩ := List.forall_mem_cons.1 each
    have multiplied : (Node.number x).multiply (.number (f.result s)) =
        .ok (.number (x * f.result s)) := by
      rw [multiply, FieldScalar.ofValue_eq]
    rw [List.foldlM_cons, first, List.map_cons, List.prod_cons, ← mul_assoc, ← ih _ rest]
    show (do (fs.foldlM _ (← (Node.number x).multiply (.number (f.result s))) : Checked (Node α))) = _
    rw [multiplied]
    rfl

omit [LawfulScalar α] in
/-- Adding terms, each of which evaluates to its result. -/
theorem evaluateSum_result {ts : List (Term α (Node α))}
    (each : ∀ t ∈ ts, (Node.product t).evaluate (some s) = .ok (.number (t.result s))) (x : α) :
    evaluateSum (some s) (.number x) ts = .ok (.number (x + (ts.map (Term.result s)).sum)) := by
  induction ts generalizing x with
  | nil =>
    rw [evaluateSum, List.map_nil, List.sum_nil, add_zero]
    rfl
  | cons t ts ih =>
    obtain ⟨first, rest⟩ := List.forall_mem_cons.1 each
    have added : (Node.number x).add (.number (t.result s)) = .ok (.number (x + t.result s)) := by
      rw [add, addWith, FieldScalar.ofValue_eq]
    rw [evaluateSum_cons, first, List.map_cons, List.sum_cons, ← add_assoc, ← ih rest]
    show (do evaluateSum (some s) (← (Node.number x).add (.number _)) ts) = _
    rw [added]
    rfl

/-- A computable expression evaluates to its result. -/
theorem evaluate_result {n : Node α} (h : n.Computable s) :
    n.evaluate (some s) = .ok (.number (n.result s)) := by
  induction h with
  | number x =>
    rw [evaluate, result]
    rfl
  | constant c negative collapsed =>
    rw [evaluate, evaluatedConstant, result]
    simp [collapsed, signed, pure, Except.pure]
  | var v negative x bound other =>
    have found := Scope.lookup_of_get bound
    rw [evaluate, evaluatedVariable, result, found]
    simp only [bound]
    show Except.ok (ofValue _) = _
    rw [FieldScalar.ofValue_eq]
    rfl
  | power f base exponent raises ihb ihe =>
    rw [evaluate_power, ihb, ihe]
    show Except.ok (evaluatedPower (.number _) (.number _)) = _
    rw [evaluatedPower_result, ← Factor.result_eq]
    rfl
  | product t denominator factors divisors nonzero ihf ihd =>
    have below : t.denominator * ((realFactors t.divisors).map (Factor.result s)).prod ≠ 0 := by
      refine mul_ne_zero denominator (List.prod_ne_zero fun zero => ?_)
      obtain ⟨g, hg, vanishes⟩ := List.mem_map.1 zero
      exact nonzero g hg vanishes
    rw [evaluate_product, FieldScalar.ofValue_eq, FieldScalar.ofValue_eq,
      evaluateProduct_result ihf, evaluateProduct_result ihd]
    show Except.ok (evaluatedFraction (.number _) (.number _)) = _
    rw [evaluatedFraction_result _ below]
    exact congrArg (fun x => Except.ok (Node.number x)) (Term.result_eq t).symm
  | sum ts terms ih =>
    rw [result_sum]
    cases ts with
    | nil =>
      rw [evaluate]
      rfl
    | cons t ts =>
      obtain ⟨first, rest⟩ := List.forall_mem_cons.1 ih
      rw [evaluate_sum_cons, first, List.map_cons, List.sum_cons]
      exact evaluateSum_result rest _
  | unary f x argument ih =>
    rw [evaluate, ih, result]
    show Except.ok (ofValue _) = _
    rw [FieldScalar.ofValue_eq]
  | binary f x y left right ihx ihy =>
    rw [evaluate, ihx, ihy, result]
    show Except.ok (ofValue _) = _
    rw [FieldScalar.ofValue_eq]

end Node

end SymbolicAlgebra
