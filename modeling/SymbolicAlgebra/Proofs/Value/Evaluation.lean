/-
  Evaluating gives the value
  ==========================
  What is certainly one has the value one and what is certainly zero the value zero
  (`Node.value_of_isOne`, `Node.value_of_isZero`), so the factors that evaluation
  passes over change nothing. **`Node.evaluate_eq`**: an admitted expression
  evaluates to its value.
-/
import SymbolicAlgebra.Proofs.Checked
import SymbolicAlgebra.Proofs.Value.Meaning

namespace SymbolicAlgebra

variable {α : Type} [FieldScalar α] {D : Discipline} {s : Scope α}

/-! ### One and zero -/

namespace Node

/-- Factors that show what they are make a product that shows what it is. -/
theorem value_product_shown {t : Term α (Node α)} (denominator : t.denominator ≠ 0)
    (above : ∀ f ∈ t.factors,
      ((Node.power f).isOne = true → f.value s = 1) ∧ ((Node.power f).isZero = true → f.value s = 0))
    (below : ∀ f ∈ t.divisors, (Node.power f).isOne = true → f.value s = 1) :
    (t.isOne = true → t.value s = 1) ∧ (t.isZero = true → t.value s = 0) := by
  obtain ⟨n, d, fs, gs⟩ := t
  rw [Term.isOne, Term.isZero, isOne, isZero, allOne_eq, allOne_eq, someZero_eq, Term.value_eq]
  dsimp only at denominator above below ⊢
  constructor
  · intro shown
    simp only [Bool.and_eq_true, beq_iff_eq, List.all_eq_true] at shown
    obtain ⟨⟨same, ones⟩, others⟩ := shown
    have left := factorsValue_eq_one fun f hf => (above f hf).1 (ones f hf)
    have right := factorsValue_eq_one fun f hf => below f hf (others f hf)
    rw [left, right, same, div_self]
    simpa using denominator
  · intro shown
    simp only [Bool.and_eq_true, Bool.or_eq_true, beq_iff_eq, List.any_eq_true] at shown
    rcases shown.2 with zero | ⟨f, real, zero⟩
    · rw [zero, zero_mul, zero_div]
    · have member : f ∈ fs := (List.mem_filter.1 real).1
      have vanishes : f.value s = 0 := (above f member).2 zero
      rw [factorsValue_eq_zero.2 ⟨f, member, vanishes⟩, mul_zero, zero_div]

variable [ExactScalar α]

/-- What shows that it is one or zero is so. -/
theorem value_of_shown {n : Node α} (h : n.Admitted D s) :
    (n.isOne = true → n.value s = 1) ∧ (n.isZero = true → n.value s = 0) := by
  induction h with
  | number x => simp [isOne, isZero, value]
  | constant c negative collapsed => simp [isOne, isZero]
  | var v negative x bound => simp [isOne, isZero]
  | power f base exponent defined ihb ihe =>
    rw [value_power, isOne, isZero]
    constructor
    · intro shown
      rcases (Bool.or_eq_true _ _).mp shown with zero | one
      · refine Factor.value_of_order s ?_
        rw [Factor.order, ihe.2 zero, ExactScalar.toInt_zero]
      · rw [Factor.value, ihb.1 one, one_zpow]
    · intro shown
      simp only [Bool.and_eq_true, Bool.not_eq_true'] at shown
      obtain ⟨positive, zero⟩ := shown
      have vanishes := ihb.2 zero
      rw [Factor.value, vanishes]
      refine zero_zpow _ fun order => ?_
      have number := defined.visible vanishes order
      have hidden := (ExactScalar.toInt_eq_zero defined.whole).1 order
      obtain ⟨b, e⟩ := f
      cases e <;> simp_all [isNumber, isZero, value]
  | product t denominator factors divisors nonzero above below ihf ihd =>
    have shown := value_product_shown (s := s) denominator
      (fun f hf => by simpa [value_power] using ihf f hf)
      (fun f hf => by simpa [value_power] using (ihd f hf).1)
    exact shown
  | sum ts terms ih =>
    rw [value_sum]
    rcases ts with _ | ⟨t, _ | ⟨u, us⟩⟩
    · simp [isOne, isZero]
    · have single := ih t List.mem_cons_self
      rw [value_product] at single
      rwa [termsValue_cons, termsValue_nil, add_zero]
    · simp [isOne, isZero]
  | unary f x argument ih => simp [isOne, isZero]
  | binary f x y left right ihx ihy => simp [isOne, isZero]

/-- What is certainly one has the value one. -/
theorem value_of_isOne {n : Node α} (h : n.Admitted D s) (one : n.isOne = true) : n.value s = 1 :=
  (value_of_shown h).1 one

/-- What is certainly zero has the value zero. -/
theorem value_of_isZero {n : Node α} (h : n.Admitted D s) (zero : n.isZero = true) :
    n.value s = 0 :=
  (value_of_shown h).2 zero

end Node

variable [ExactScalar α]

theorem Factor.value_of_isOne {f : Factor (Node α)} (h : f.Admitted D s) (one : f.isOne = true) :
    f.value s = 1 := by
  rw [← Node.value_power]
  exact Node.value_of_isOne h one

theorem Term.value_of_isZero {t : Term α (Node α)} (h : t.Admitted D s) (zero : t.isZero = true) :
    t.value s = 0 :=
  Node.value_of_isZero h zero

/-- Factors that are certainly one can be left out. -/
theorem Node.factorsValue_real {fs : List (Factor (Node α))} (h : ∀ f ∈ fs, f.Admitted D s) :
    factorsValue s (realFactors fs) = factorsValue s fs := by
  induction fs with
  | nil => rfl
  | cons f fs ih =>
    have rest := ih fun g hg => h g (List.mem_cons_of_mem f hg)
    rw [factorsValue_cons, ← rest, realFactors, List.filter_cons]
    by_cases one : f.isOne = true
    · rw [Factor.value_of_isOne (h f List.mem_cons_self) one, one_mul, if_neg (by simp [one])]
      rfl
    · rw [if_pos (by simp [one])]
      rfl

/-- A term in terms of the factors that count. -/
theorem Term.value_real {t : Term α (Node α)} (h : t.Admitted D s) :
    t.value s = t.numerator * Node.factorsValue s t.realFactors /
      (t.denominator * Node.factorsValue s t.realDivisors) := by
  rw [Term.value_eq, Term.realFactors, Term.realDivisors, Node.factorsValue_real h.factors,
    Node.factorsValue_real h.divisors]

/-! ### Evaluating -/

namespace Node

theorem evaluatedPower_number {b x : α} (whole : Scalar.isWhole x = true)
    (defined : b = 0 → 0 ≤ Scalar.toInt x) :
    evaluatedPower (.number b) (.number x) = .number (b ^ Scalar.toInt x) := by
  unfold evaluatedPower
  dsimp only
  split
  · rename_i zero
    rw [eq_of_beq zero, ExactScalar.toInt_zero, zpow_zero]
  · split
    · rename_i one
      rw [eq_of_beq one, ExactScalar.toInt_one, zpow_one]
    · rw [FieldScalar.ofValue_eq, ExactScalar.power_eq whole defined]

omit [ExactScalar α] in
theorem evaluatedFraction_number (n : α) {d : α} (nonzero : d ≠ 0) :
    evaluatedFraction (.number n) (.number d) = .number (n / d) := by
  unfold evaluatedFraction
  dsimp only
  rw [if_neg (by simpa using nonzero), FieldScalar.ofValue_eq, FieldScalar.quotient_eq nonzero]

theorem evaluateProduct_eq {fs : List (Factor (Node α))} (h : ∀ f ∈ fs, f.Admitted D s)
    (each : ∀ f ∈ fs, (Node.power f).evaluate (some s) = .ok (.number (f.value s))) (x : α) :
    evaluateProduct (some s) (.number x) fs = .ok (.number (x * factorsValue s fs)) := by
  induction fs generalizing x with
  | nil =>
    rw [evaluateProduct, factorsValue_nil, mul_one]
    rfl
  | cons f fs ih =>
    have rest := ih (fun g hg => h g (List.mem_cons_of_mem f hg))
      (fun g hg => each g (List.mem_cons_of_mem f hg))
    rw [factorsValue_cons]
    by_cases one : f.isOne = true
    · rw [evaluateProduct_one _ _ one, rest, Factor.value_of_isOne (h f List.mem_cons_self) one,
        one_mul]
    · rw [evaluateProduct_cons _ _ (by simpa using one), each f List.mem_cons_self]
      have multiplied : (Node.number x).multiply (.number (f.value s)) =
          .ok (.number (x * f.value s)) := by
        rw [multiply, FieldScalar.ofValue_eq]
      rw [← mul_assoc, ← rest (x * f.value s)]
      show (do evaluateProduct (some s) (← (Node.number x).multiply (.number (f.value s))) fs) = _
      rw [multiplied]
      rfl

/-- A fraction of products that evaluate. -/
theorem evaluate_fraction {t : Term α (Node α)} (h : t.Admitted D s)
    (above : ∀ f ∈ t.factors, (Node.power f).evaluate (some s) = .ok (.number (f.value s)))
    (below : ∀ f ∈ t.divisors, (Node.power f).evaluate (some s) = .ok (.number (f.value s))) :
    (do
      let above ← evaluateProduct (some s) (ofValue t.numerator) t.factors
      let below ← evaluateProduct (some s) (ofValue t.denominator) t.divisors
      return evaluatedFraction above below : Checked (Node α)) = .ok (.number (t.value s)) := by
  have nonzero : t.denominator * factorsValue s t.divisors ≠ 0 :=
    mul_ne_zero h.denominator (factorsValue_ne_zero h.nonzero)
  rw [FieldScalar.ofValue_eq, FieldScalar.ofValue_eq, evaluateProduct_eq h.factors above,
    evaluateProduct_eq h.divisors below, Term.value_eq]
  show Except.ok (evaluatedFraction (.number _) (.number _)) = _
  rw [evaluatedFraction_number _ nonzero]

omit [ExactScalar α] in
theorem evaluateSum_eq {ts : List (Term α (Node α))}
    (each : ∀ t ∈ ts, (Node.product t).evaluate (some s) = .ok (.number (t.value s))) (x : α) :
    evaluateSum (some s) (.number x) ts = .ok (.number (x + termsValue s ts)) := by
  induction ts generalizing x with
  | nil =>
    rw [evaluateSum, termsValue_nil, add_zero]
    rfl
  | cons t ts ih =>
    have rest := ih (fun u hu => each u (List.mem_cons_of_mem t hu)) (x + t.value s)
    have first := each t List.mem_cons_self
    have added : (Node.number x).add (.number (t.value s)) = .ok (.number (x + t.value s)) := by
      rw [add, addWith, FieldScalar.ofValue_eq]
    rw [evaluateSum_cons, first, termsValue_cons, ← add_assoc, ← rest]
    show (do evaluateSum (some s) (← (Node.number x).add (.number _)) ts) = _
    rw [added]
    rfl

/-- An admitted expression evaluates to its value. -/
theorem evaluate_eq {n : Node α} (h : n.Admitted D s) :
    n.evaluate (some s) = .ok (.number (n.value s)) := by
  induction h with
  | number x =>
    rw [evaluate, value]
    rfl
  | constant c negative collapsed =>
    rw [evaluate, evaluatedConstant, value]
    simp [collapsed, pure, Except.pure]
  | var v negative x bound =>
    have found := Scope.lookup_of_get bound
    rw [evaluate, evaluatedVariable, value, found]
    simp only [bound]
    show Except.ok (ofValue _) = _
    rw [FieldScalar.ofValue_eq]
    rfl
  | power f base exponent defined ihb ihe =>
    obtain ⟨b, e⟩ := f
    rw [evaluate, ihb, ihe, value_power]
    show Except.ok (evaluatedPower (.number _) (.number _)) = _
    rw [evaluatedPower_number defined.whole defined.defined]
    rfl
  | product t denominator factors divisors nonzero above below ihf ihd =>
    have whole : t.Admitted D s := .product t denominator factors divisors nonzero above below
    have fraction := evaluate_fraction whole (fun f hf => by rw [ihf f hf, value_power])
      (fun f hf => by rw [ihd f hf, value_power])
    obtain ⟨n, d, fs, gs⟩ := t
    rw [evaluate]
    exact fraction
  | sum ts terms ih =>
    rw [value_sum]
    rcases ts with _ | ⟨t, ts⟩
    · rw [evaluate]
      rfl
    · rw [evaluate_sum_cons, ih t List.mem_cons_self, termsValue_cons]
      exact evaluateSum_eq (fun u hu => ih u (List.mem_cons_of_mem t hu)) _
  | unary f x argument ih =>
    rw [evaluate, ih, value]
    show Except.ok (ofValue _) = _
    rw [FieldScalar.ofValue_eq]
  | binary f x y left right ihx ihy =>
    rw [evaluate, ihx, ihy, value]
    show Except.ok (ofValue _) = _
    rw [FieldScalar.ofValue_eq]

end Node

end SymbolicAlgebra
