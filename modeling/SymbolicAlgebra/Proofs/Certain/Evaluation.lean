/-
  What is certainly zero or one
  =============================
  Terms and sums leave out what is certainly zero or certainly one. These two questions
  are answered without values for the variables, and evaluation follows its own way. It
  leads to the same number: a node that is certainly zero evaluates to zero and one that
  is certainly one evaluates to one, or the result is undefined, since zero over zero
  and zero times an infinite number are: **`Node.evaluate_certain`**.

  A power whose base is certainly zero is taken for zero whenever its exponent is not
  certainly zero, but it is one when the exponent evaluates to zero. The theorem is
  therefore about nodes whose answer hangs on no such power (`Node.HangsOn`).
-/
import SymbolicAlgebra.Proofs.Certain.Undefined
import SymbolicAlgebra.Proofs.Variables.Evaluation
import SymbolicAlgebra.Proofs.Algebra.Demand

namespace SymbolicAlgebra

open Scalar (Amounts Undefined Vanishing)

variable {α : Type} [Scalar α]

namespace Node

/-! ### Evaluated powers and fractions -/

section Parts

variable [LossyScalar α] {b x n d : α}

theorem evaluatedPower_zero (base : Amounts b 0) (exponent : Vanishing x) :
    ∃ y, evaluatedPower (.number b) (.number x) = .number y ∧ Amounts y 0 := by
  unfold evaluatedPower
  dsimp only
  rw [exponent.1, if_neg Bool.false_ne_true]
  split
  · exact ⟨b, rfl, base⟩
  · exact ⟨_, rfl, (base.zero_power exponent).unsignedZero⟩

theorem evaluatedPower_one (base : Amounts b 1) (x : α) :
    ∃ y, evaluatedPower (.number b) (.number x) = .number y ∧ Amounts y 1 := by
  unfold evaluatedPower
  dsimp only
  split
  · exact ⟨1, rfl, .inl LossyScalar.one_beq_one⟩
  · rename_i nonzero
    split
    · exact ⟨b, rfl, base⟩
    · exact ⟨_, rfl, (base.one_power (by simpa using nonzero)).unsignedZero⟩

/-- Under an exponent that amounts to zero everything amounts to one. -/
theorem evaluatedPower_empty (b : α) (exponent : Amounts x 0) :
    ∃ y, evaluatedPower (.number b) (.number x) = .number y ∧ Amounts y 1 := by
  unfold evaluatedPower
  dsimp only
  rcases exponent with zero | undefined
  · rw [if_pos zero]
    exact ⟨1, rfl, .inl LossyScalar.one_beq_one⟩
  · rw [undefined.beq, undefined.beq, if_neg Bool.false_ne_true, if_neg Bool.false_ne_true]
    exact ⟨_, rfl, (LossyScalar.power_undefined b undefined).unsignedZero⟩

theorem evaluatedFraction_zero (above : Amounts n 0) (d : α) :
    ∃ y, evaluatedFraction (.number n) (.number d) = .number y ∧ Amounts y 0 := by
  unfold evaluatedFraction
  dsimp only
  split
  · exact ⟨_, rfl, Amounts.unsignedZero (.inr LossyScalar.undefined)⟩
  · exact ⟨_, rfl, (above.quotient d).unsignedZero⟩

theorem evaluatedFraction_one (same : (n == d) = true) :
    ∃ y, evaluatedFraction (.number n) (.number d) = .number y ∧ Amounts y 1 := by
  unfold evaluatedFraction
  dsimp only
  split
  · exact ⟨_, rfl, Amounts.unsignedZero (.inr LossyScalar.undefined)⟩
  · exact ⟨_, rfl, (Scalar.quotient_same same).unsignedZero⟩

end Parts

/-! ### The powers that decide -/

/-- Whether the node is certainly zero or one hangs on the power: nothing is left of it, or of what
it stands in, that would decide without it. -/
inductive HangsOn : Node α → Factor (Node α) → Prop
  | power (f : Factor (Node α)) (present : f.exponent.isZero = false) : HangsOn (.power f) f
  | base {f g : Factor (Node α)} (present : f.exponent.isZero = false) (inside : HangsOn f.base g) :
      HangsOn (.power f) g
  | exponent {f g : Factor (Node α)} (empty : f.exponent.isZero = true)
      (inside : HangsOn f.exponent g) : HangsOn (.power f) g
  | factor {t : Term α (Node α)} {f g : Factor (Node α)} (present : (t.numerator == 0) = false)
      (member : f ∈ t.realFactors) (inside : HangsOn (.power f) g) : HangsOn (.product t) g
  | single {t : Term α (Node α)} {g : Factor (Node α)} (inside : HangsOn (.product t) g) :
      HangsOn (.sum [t]) g

/-- The result of evaluating the node in the scope amounts to the number. -/
def AmountsTo (s : Scope α) (n : Node α) (c : α) : Prop :=
  ∃ x, n.evaluate (some s) = .ok (.number x) ∧ Amounts x c

/-- Where the answer hangs on a power of something that is certainly zero, zero to the power of
its exponent is zero or undefined. -/
def Decided (s : Scope α) (n : Node α) : Prop :=
  ∀ f, n.HangsOn f → f.base.isZero = true →
    ∀ x, f.exponent.evaluate (some s) = .ok (.number x) → Vanishing x

section Values

variable [LossyScalar α] {s : Scope α}

/-- Factors that evaluate to numbers make a product that amounts to zero, when what they are
multiplied to does or one of them does. -/
theorem multiplied_zero {fs : List (Factor (Node α))} {start : α}
    (each : ∀ f ∈ fs, ∃ x, (Node.power f).evaluate (some s) = .ok (.number x))
    (zero : Amounts start 0 ∨ ∃ f ∈ fs, AmountsTo s (.power f) 0) :
    ∃ y, fs.foldlM (fun (m : Node α) f => do m.multiply (← (Node.power f).evaluate (some s)))
      (.number start) = .ok (.number y) ∧ Amounts y 0 := by
  induction fs generalizing start with
  | nil =>
    refine ⟨start, rfl, zero.resolve_right ?_⟩
    rintro ⟨f, hf, -⟩
    cases hf
  | cons f fs ih =>
    obtain ⟨⟨x, first⟩, later⟩ := List.forall_mem_cons.1 each
    have carried : Amounts (Scalar.unsignedZero (start * x)) 0 ∨
        ∃ g ∈ fs, AmountsTo s (.power g) 0 := by
      rcases zero with zero | ⟨g, hg, y, value, zero⟩
      · exact .inl (LossyScalar.zero_mul x zero).unsignedZero
      · rcases List.mem_cons.1 hg with rfl | hg
        · cases first.symm.trans value
          exact .inl (LossyScalar.mul_zero start zero).unsignedZero
        · exact .inr ⟨g, hg, y, value, zero⟩
    obtain ⟨y, product, amounts⟩ := ih later carried
    refine ⟨y, ?_, amounts⟩
    rw [List.foldlM_cons, first]
    exact product

variable {f : Factor (Node α)} {t : Term α (Node α)}

omit [LossyScalar α] in
theorem power_amountsTo {b x y c : α} (base : f.base.evaluate (some s) = .ok (.number b))
    (exponent : f.exponent.evaluate (some s) = .ok (.number x))
    (power : evaluatedPower (.number b) (.number x) = .number y) (amounts : Amounts y c) :
    AmountsTo s (.power f) c := by
  refine ⟨y, ?_, amounts⟩
  rw [evaluate_power, base, exponent, ← power]
  rfl

/-- A term one of whose factors amounts to zero, or whose numerator does, amounts to zero. -/
theorem product_amountsTo_zero
    (above : ∀ f ∈ t.realFactors, ∃ x, (Node.power f).evaluate (some s) = .ok (.number x))
    (below : ∀ f ∈ t.realDivisors, ∃ x, (Node.power f).evaluate (some s) = .ok (.number x))
    (zero : (t.numerator == 0) = true ∨ ∃ f ∈ t.realFactors, AmountsTo s (.power f) 0) :
    AmountsTo s (.product t) 0 := by
  obtain ⟨x, numerator, vanishes⟩ := multiplied_zero above
    (zero.imp_left fun zero => Amounts.unsignedZero (.inl zero))
  obtain ⟨y, denominator⟩ := multiplied_numeric below (Scalar.unsignedZero t.denominator)
  obtain ⟨z, fraction, amounts⟩ := evaluatedFraction_zero vanishes y
  refine ⟨z, ?_, amounts⟩
  rw [evaluate_product, evaluateProduct_foldlM, evaluateProduct_foldlM]
  exact bind_eq_ok.2 ⟨_, numerator, bind_eq_ok.2 ⟨_, denominator, congrArg Except.ok fraction⟩⟩

/-- A term that is certainly one has nothing to evaluate but its coefficient. -/
theorem product_amountsTo_one (one : t.isOne = true) : AmountsTo s (.product t) 1 := by
  rw [Term.isOne_eq, Bool.and_eq_true, Bool.and_eq_true, List.isEmpty_iff, List.isEmpty_iff] at one
  obtain ⟨⟨same, above⟩, below⟩ := one
  obtain ⟨y, fraction, amounts⟩ := evaluatedFraction_one (Scalar.unsignedZero_beq same)
  refine ⟨y, ?_, amounts⟩
  rw [evaluate_product, evaluateProduct_foldlM, evaluateProduct_foldlM]
  rw [Term.realFactors] at above
  rw [Term.realDivisors] at below
  rw [above, below]
  exact congrArg Except.ok fraction

omit [LossyScalar α] in
theorem evaluate_sum_single (s : Option (Scope α)) (t : Term α (Node α)) :
    (Node.sum [t]).evaluate s = (Node.product t).evaluate s := by
  rw [evaluate_sum_cons]
  simp only [evaluateSum]
  exact bind_pure _

end Values

/-! ### The answers and the values -/

section Answers

variable [LossyScalar α] {s : Scope α}

/-- The value of the node agrees with what is certain of it. -/
def Certain (s : Scope α) (n : Node α) : Prop :=
  n.Over (fun name => ∃ x, s.get name = .ok (some x)) → n.Decided s →
    (n.isZero = true → AmountsTo s n 0) ∧ (n.isOne = true → AmountsTo s n 1)

omit [LossyScalar α] in
/-- Of a node that is neither certainly zero nor certainly one nothing is claimed. -/
theorem certain_of_open {n : Node α} (zero : n.isZero = false) (one : n.isOne = false) :
    n.Certain s := by
  intro _ _
  rw [zero, one]
  exact ⟨nofun, nofun⟩

/-- A power agrees with what is certain of it, when its base and its exponent do. -/
theorem power_certain (collapsed : s.collapseConstants = true) {f : Factor (Node α)}
    (base : f.base.Certain s) (exponent : f.exponent.Certain s) : (Node.power f).Certain s := by
  intro bound decided
  obtain ⟨lower, upper⟩ := Factor.over_iff.1 bound
  obtain ⟨b, baseValue⟩ := evaluate_numeric collapsed lower
  obtain ⟨x, exponentValue⟩ := evaluate_numeric collapsed upper
  have zero : (Node.power f).isZero = (!f.exponent.isZero && f.base.isZero) := by rw [isZero]
  have one : (Node.power f).isOne = (f.exponent.isZero || f.base.isOne) := by rw [isOne]
  rw [zero, one]
  by_cases empty : f.exponent.isZero = true
  · rw [empty]
    refine ⟨fun impossible => by simp at impossible, fun _ => ?_⟩
    obtain ⟨y, value, amounts⟩ :=
      (exponent upper fun g inside => decided g (.exponent empty inside)).1 empty
    cases exponentValue.symm.trans value
    obtain ⟨z, power, result⟩ := evaluatedPower_empty b amounts
    exact power_amountsTo baseValue exponentValue power result
  · have present : f.exponent.isZero = false := by simpa using empty
    obtain ⟨vanishes, unit⟩ := base lower fun g inside => decided g (.base present inside)
    rw [present, Bool.not_false, Bool.true_and, Bool.false_or]
    constructor
    · intro none
      obtain ⟨y, value, amounts⟩ := vanishes none
      cases baseValue.symm.trans value
      obtain ⟨z, power, result⟩ :=
        evaluatedPower_zero amounts (decided f (.power f present) none x exponentValue)
      exact power_amountsTo baseValue exponentValue power result
    · intro single
      obtain ⟨y, value, amounts⟩ := unit single
      cases baseValue.symm.trans value
      obtain ⟨z, power, result⟩ := evaluatedPower_one amounts x
      exact power_amountsTo baseValue exponentValue power result

/-- A term agrees with what is certain of it, when its factors do. -/
theorem product_certain (collapsed : s.collapseConstants = true) {t : Term α (Node α)}
    (above : ∀ f ∈ t.realFactors, (Node.power f).Certain s) : (Node.product t).Certain s := by
  intro bound decided
  obtain ⟨upper, lower⟩ := Term.over_iff.1 bound
  refine ⟨fun zero => ?_, product_amountsTo_one⟩
  refine product_amountsTo_zero (fun f hf => evaluate_numeric collapsed (upper f hf))
    (fun f hf => evaluate_numeric collapsed (lower f hf)) ?_
  by_cases none : (t.numerator == 0) = true
  · exact .inl none
  · have present : (t.numerator == 0) = false := by simpa using none
    have some : t.realFactors.any Factor.isZero = true := by
      have zero := zero
      rw [← Term.isZero, Term.isZero_eq, present, Bool.false_or, Bool.and_eq_true] at zero
      exact zero.2
    obtain ⟨f, hf, vanishes⟩ := List.any_eq_true.1 some
    refine .inr ⟨f, hf, (above f hf (upper f hf) fun g inside => ?_).1 ?_⟩
    · exact decided g (.factor present hf inside)
    · rw [isZero]
      exact vanishes

/-- Every node agrees with what is certain of it. -/
theorem all_certain (collapsed : s.collapseConstants = true) (n : Node α) : n.Certain s := by
  induction n using Node.induction_parts with
  | number x =>
    intro _ _
    have value : (Node.number x).evaluate (some s) = .ok (.number x) := by rw [evaluate]; rfl
    rw [isZero, isOne]
    exact ⟨fun zero => ⟨x, value, .inl zero⟩, fun one => ⟨x, value, .inl one⟩⟩
  | power f base exponent => exact power_certain collapsed base exponent
  | product t parts =>
    refine product_certain collapsed fun f hf => ?_
    obtain ⟨base, exponent⟩ := parts f (List.mem_append_left _ hf)
    exact power_certain collapsed base exponent
  | sum ts parts =>
    rcases ts with _ | ⟨t, _ | ⟨u, ts⟩⟩
    · exact certain_of_open (by simp [isZero]) (by simp [isOne])
    · intro bound decided
      have each : ∀ f ∈ t.realFactors, (Node.power f).Certain s := by
        intro f hf
        obtain ⟨base, exponent⟩ := parts t List.mem_cons_self f (List.mem_append_left _ hf)
        exact power_certain collapsed base exponent
      have term := product_certain collapsed each (over_sum.1 bound t List.mem_cons_self)
        fun g inside => decided g (.single inside)
      unfold AmountsTo at term ⊢
      rw [evaluate_sum_single]
      exact term
    · exact certain_of_open (by simp [isZero]) (by simp [isOne])
  | constant c negative => exact certain_of_open (by simp [isZero]) (by simp [isOne])
  | var v negative => exact certain_of_open (by simp [isZero]) (by simp [isOne])
  | unary f x _ => exact certain_of_open (by simp [isZero]) (by simp [isOne])
  | binary f x y _ _ => exact certain_of_open (by simp [isZero]) (by simp [isOne])

/-- In a scope that binds all variables and collapses constants, a node that is certainly zero
evaluates to a number that is zero or undefined, and one that is certainly one to a number that is
one or undefined. -/
theorem evaluate_certain (n : Node α) (s : Scope α) (collapsed : s.collapseConstants = true)
    (bound : ∀ name ∈ n.«variables», ∃ x, s.get name = .ok (some x)) (decided : n.Decided s) :
    (n.isZero = true → ∃ x, n.evaluate (some s) = .ok (.number x) ∧ ((x == 0) = true ∨ Undefined x)) ∧
      (n.isOne = true →
        ∃ x, n.evaluate (some s) = .ok (.number x) ∧ ((x == 1) = true ∨ Undefined x)) :=
  all_certain collapsed n bound decided

end Answers

/-- At `x = 2` and `y = 5`, the product `0^x * y` is zero and the power `x^(0 * y)` is one. -/
theorem evaluate_certain_powers :
    let x : Node Partial := .var ⟨'x', 0⟩ false
    let y : Node Partial := .var ⟨'y', 0⟩ false
    let n : Node Partial := .product ⟨1, 1, [⟨.number 0, x⟩, ⟨y, .number 1⟩], [Factor.empty]⟩
    let m : Node Partial := .power ⟨x, .product ⟨0, 1, [⟨y, .number 1⟩], [Factor.empty]⟩⟩
    let s : Scope Partial :=
      { values := [("x", .number 2), ("y", .number 5)], collapseConstants := true }
    (n.isZero = true ∧ n.Decided s ∧
      ∃ z, n.evaluate (some s) = .ok (.number z) ∧ ((z == 0) = true ∨ Undefined z)) ∧
      m.isOne = true ∧ m.Decided s ∧
        ∃ z, m.evaluate (some s) = .ok (.number z) ∧ ((z == 1) = true ∨ Undefined z) := by
  intro x y n m s
  have value : x.evaluate (some s) = .ok (.number (.number 2)) := by with_unfolding_all rfl
  have zero : n.isZero = true := by with_unfolding_all rfl
  have one : m.isOne = true := by with_unfolding_all rfl
  have product : n.Decided s := by
    intro f hangs none z exponent
    dsimp only [n] at hangs
    cases hangs with
    | @factor _ g _ _ member inside =>
      have factors : g ∈ [⟨.number 0, x⟩, (⟨y, .number 1⟩ : Factor (Node Partial))] := member
      rcases List.mem_cons.1 factors with rfl | last
      · cases inside with
        | power =>
          cases value.symm.trans exponent
          exact ⟨rfl, .inl rfl⟩
        | base _ inside => cases inside
        | exponent empty => cases empty
      · obtain rfl := List.mem_singleton.1 last
        cases inside with
        | power => cases none
        | base _ inside => cases inside
        | exponent empty => cases empty
  have power : m.Decided s := by
    intro f hangs none z exponent
    dsimp only [m] at hangs
    cases hangs with
    | power _ present => cases present
    | base present => cases present
    | exponent _ inside =>
      cases inside with
      | factor present => cases present
  have bound : ∀ k : Node Partial, k = n ∨ k = m →
      ∀ name ∈ k.«variables», ∃ z, s.get name = .ok (some z) := by
    intro k either name reported
    have names : name ∈ ["x", "y"] := by
      rcases either with rfl | rfl <;> exact reported
    rcases List.mem_cons.1 names with rfl | last
    · exact ⟨.number 2, rfl⟩
    · obtain rfl := List.mem_singleton.1 last
      exact ⟨.number 5, rfl⟩
  exact ⟨⟨zero, product, (evaluate_certain n s rfl (bound n (.inl rfl)) product).1 zero⟩, one, power,
    (evaluate_certain m s rfl (bound m (.inr rfl)) power).2 one⟩

/-- Zero over `x` is certainly zero and evaluates to an undefined number at `x = 0`. -/
theorem not_evaluate_certain_quotient :
    let x : Node Float := .var ⟨'x', 0⟩ false
    let n : Node Float := .product ⟨0, 1, [Factor.empty], [⟨x, .number 1⟩]⟩
    let s : Scope Float := { values := [("x", 0)], collapseConstants := true }
    (∀ name ∈ n.«variables», ∃ y, s.get name = .ok (some y)) ∧ n.isZero = true ∧
      ∃ y, n.evaluate (some s) = .ok (.number y) ∧ (y == 0) = false := by
  refine ⟨?_, by decide +kernel, Scalar.unsignedZero Scalar.undefined, ?_, by decide +kernel⟩
  · intro name reported
    obtain rfl := List.mem_singleton.1 reported
    exact ⟨0, rfl⟩
  · with_unfolding_all rfl

end Node

end SymbolicAlgebra
