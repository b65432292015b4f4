/-
  Substitution in stages
  ======================
  Putting in some values first and the others later gives what putting in all of them
  at once gives. At once, evaluation only computes with numbers; in stages the first
  one leaves an expression behind, made by the algebra of nodes, and the second one
  evaluates that. Both are the value of the expression where both scopes together bind
  its variables: what the first stage leaves has this value in the second scope
  (**`Node.Upright.splits`**).

  The first stage adds what is left of terms, over a common denominator. This is right for
  upright expressions: what they leave is built of stable factors (`Node.Built.addable`).
-/
import SymbolicAlgebra.Proofs.Staged.Upright
import SymbolicAlgebra.Proofs.Variables.Over

namespace SymbolicAlgebra

/-! ### Two scopes as one -/

namespace Scope

variable {α : Type} {s t : Scope α} {name : String}

/-- The scope that binds what either scope binds, and collapses constants if one of them does. -/
def union (s t : Scope α) : Scope α :=
  ⟨s.values ++ t.values, s.collapseConstants || t.collapseConstants⟩

theorem lookup_union : (s.union t).lookup name = (s.lookup name).or (t.lookup name) := by
  unfold lookup union
  dsimp only
  induction s.values with
  | nil => rfl
  | cons entry rest ih =>
    obtain ⟨key, value⟩ := entry
    rw [List.cons_append, List.lookup_cons, List.lookup_cons, ih]
    split <;> rfl

/-- A name that both scopes together bind is bound by the first one, or else by the second one. -/
theorem get_of_union {x : α} (bound : (s.union t).get name = .ok (some x)) :
    s.get name = .ok (some x) ∨ s.get name = .ok none ∧ t.get name = .ok (some x) := by
  have found := lookup_of_get bound
  rw [lookup_union] at found
  unfold get checkedName at bound ⊢
  split at bound
  · rename_i named
    rw [if_pos named]
    cases first : s.lookup name with
    | some y =>
      rw [first] at found
      cases found
      exact .inl (congrArg Except.ok first)
    | none =>
      rw [first, Option.none_or] at found
      exact .inr ⟨congrArg Except.ok first, congrArg Except.ok found⟩
  · cases bound

end Scope

variable {α : Type} [FieldScalar α] {C : Prop} {p : Place} {s t : Scope α}

/-! ### Where an expression is defined -/

/-- No denominator in the expression and no base under a negative exponent is zero. -/
inductive Node.Nonsingular (s : Scope α) : Node α → Prop
  | number (x : α) : Nonsingular s (.number x)
  | constant (c : Constant) (negative : Bool) : Nonsingular s (.constant c negative)
  | var (v : Variable) (negative : Bool) : Nonsingular s (.var v negative)
  | power (f : Factor (Node α)) (base : Nonsingular s f.base)
    (exponent : Nonsingular s f.exponent) (defined : f.base.value s = 0 → 0 ≤ f.order s) :
    Nonsingular s (.power f)
  | product (t : Term α (Node α)) (denominator : t.denominator ≠ 0)
    (factors : ∀ f ∈ t.factors, Nonsingular s (.power f))
    (divisors : ∀ g ∈ t.divisors, Nonsingular s (.power g))
    (nonzero : ∀ g ∈ t.divisors, g.value s ≠ 0) : Nonsingular s (.product t)
  | sum (ts : List (Term α (Node α))) (terms : ∀ t ∈ ts, Nonsingular s (.product t)) :
    Nonsingular s (.sum ts)
  | unary (f : Unary) (x : Node α) (argument : Nonsingular s x) : Nonsingular s (.unary f x)
  | binary (f : Binary) (x y : Node α) (left : Nonsingular s x) (right : Nonsingular s y) :
    Nonsingular s (.binary f x y)

namespace Node

variable [ExactScalar α]

/-- An upright expression whose variables are bound is admitted where it is not singular. -/
theorem Upright.admitted {n : Node α} (h : n.Upright (s.collapseConstants = true) p)
    (bound : n.Over fun name => ∃ x, s.get name = .ok (some x)) (nonsingular : n.Nonsingular s) :
    n.Admitted .plain s := by
  induction nonsingular generalizing p with
  | number x => exact .number x
  | constant c negative =>
    cases h with
    | constant _ _ _ collapsed => exact .constant c negative collapsed
  | var v negative =>
    obtain ⟨x, found⟩ := over_var.1 bound
    exact .var v negative x found
  | power f _ _ defined base exponent =>
    obtain ⟨upright, allowed⟩ := upright_power.1 h
    obtain ⟨left, right⟩ := Factor.over_iff.1 bound
    obtain ⟨z, number⟩ := allowed.exists_cast
    have upright' : f.exponent.Upright (s.collapseConstants = true) .inside := by
      rw [number]
      exact .number _ _
    refine .power f (base upright left) (exponent upright' right) ⟨?_, defined, ?_, trivial⟩
    · rw [number, value]
      exact ExactScalar.isWhole_cast z
    · rw [number]
      rfl
  | product t denominator _ _ nonzero above below =>
    obtain ⟨upper, lower⟩ := upright_product.1 h
    obtain ⟨left, right⟩ := Term.over_iff.1 bound
    have side : ∀ {fs : List (Factor (Node α))},
        (∀ f ∈ fs, f ≠ Factor.empty →
          (Node.power f).Upright (s.collapseConstants = true) .inside) →
        (∀ f ∈ realFactors fs, f.Over fun name => ∃ x, s.get name = .ok (some x)) →
        (∀ f ∈ fs, ∀ {p : Place}, (Node.power f).Upright (s.collapseConstants = true) p →
          ((Node.power f).Over fun name => ∃ x, s.get name = .ok (some x)) →
            (Node.power f).Admitted .plain s) →
        ∀ f ∈ fs, (Node.power f).Admitted .plain s := by
      intro fs upright named each f hf
      by_cases empty : f = Factor.empty
      · rw [empty]
        exact Term.empty_spec.1
      · refine each f hf (upright f hf empty) ?_
        by_cases one : f.isOne = true
        · exact over_of_isConstant ((upright f hf empty).isConstant_of_isOne one)
        · exact named f (List.mem_filter.2 ⟨hf, by simpa using one⟩)
    exact .product t denominator (side upper left fun f hf => above f hf)
      (side lower right fun g hg => below g hg) nonzero (fun _ _ => trivial) fun _ _ => trivial
  | sum ts _ each =>
    refine .sum ts fun t ht => ?_
    exact each t ht (upright_sum.1 h t ht) (over_sum.1 bound t ht)
  | unary f x _ ih =>
    exact .unary f x (ih (CarriesOver.unary.1 h) (over_unary.1 bound))
  | binary f x y _ _ left right =>
    obtain ⟨first, second⟩ := CarriesOver.binary.1 h
    obtain ⟨named, named'⟩ := over_binary.1 bound
    exact .binary f x y (left first named) (right second named')

/-! ### Results that can be added -/

/-- What is built from upright factors can be added. -/
theorem Built.addable {n : Node α} (h : Built (fun p (n : Node α) => n.Upright C p) n) :
    n.Addable := by
  intro noSum
  cases h with
  | other upright noTerm =>
    unfold Term.wrap
    split
    · exact absurd rfl (noTerm _)
    · exact absurd rfl (noSum _)
    · exact Term.normal_stable (List.forall_mem_singleton.2 (carry_asFactor upright))
        (List.forall_mem_nil _) 1 1
  | term above below n d => exact Term.normal_stable above below n d

/-! ### The first stage -/

/-- Evaluating in the first scope leaves an expression that has the value in the second one. -/
def Splits (s t : Scope α) (n : Node α) : Prop :=
  ∃ m, n.evaluate (some s) = .ok m ∧ m.Admitted .plain t ∧ m.value t = n.value (s.union t)

/-- An upright expression evaluates to one, whatever the scope binds. -/
theorem Upright.evaluate {n : Node α} (h : n.Upright C p) :
    Yields (fun m => m.Upright C p) (n.evaluate (some s)) := by
  refine carry_evaluate (Q := fun p n => n.Upright C p) (R := fun p n => n.Upright C p) ?_ ?_ ?_ h
  · intro p c negative upright
    unfold evaluatedConstant
    split
    · exact .number _ _
    · exact upright
  · intro p v negative upright m result
    obtain ⟨value, -, rest⟩ := bind_eq_ok.1 result
    cases value <;> cases rest
    · exact upright
    · exact .number _ _
  · intro p e allowed _
    obtain ⟨z, rfl⟩ := (upright_exponent.1 allowed).exists_cast
    rw [Node.evaluate]
    exact .ok allowed

theorem evaluatedPower_spec {b : Node α} {x : α} (hb : b.Admitted .plain t)
    (whole : Scalar.isWhole x = true) (defined : b.value t = 0 → 0 ≤ Scalar.toInt x) :
    (evaluatedPower b (.number x)).Admitted .plain t ∧
      (evaluatedPower b (.number x)).value t = b.value t ^ Scalar.toInt x := by
  unfold evaluatedPower
  dsimp only
  split
  · rename_i zero
    refine ⟨.number 1, ?_⟩
    rw [value, eq_of_beq zero, ExactScalar.toInt_zero, zpow_zero]
  · split
    · rename_i one
      refine ⟨hb, ?_⟩
      rw [eq_of_beq one, ExactScalar.toInt_one, zpow_one]
    · split
      · rename_i y
        rw [value] at defined ⊢
        rw [FieldScalar.ofValue_eq, ExactScalar.power_eq whole defined, value]
        exact ⟨.number _, rfl⟩
      · refine ⟨.power _ hb (.number x) ⟨?_, ?_, rfl, trivial⟩, ?_⟩
        · rwa [value]
        · rwa [Factor.order, value]
        · rw [value_power, Factor.value, Factor.order, value]

theorem evaluatedFraction_spec {m n : Node α} (hm : m.Admitted .plain t)
    (hn : n.Admitted .plain t) (nonzero : n.value t ≠ 0) :
    (evaluatedFraction m n).Admitted .plain t ∧
      (evaluatedFraction m n).value t = m.value t / n.value t := by
  obtain ⟨fraction, fractionValue⟩ := Term.ofNodes_spec (n := 1) (one_ne_zero (α := α))
    (List.forall_mem_singleton.2 hm) (List.forall_mem_singleton.2 hn)
    (List.forall_mem_singleton.2 nonzero)
  simp only [List.map_cons, List.map_nil, List.prod_cons, List.prod_nil, mul_one, one_mul]
    at fractionValue
  unfold evaluatedFraction
  split
  · rename_i d
    rw [value] at nonzero ⊢
    rw [if_neg (by simpa using nonzero)]
    split
    · rename_i x
      rw [FieldScalar.ofValue_eq, FieldScalar.quotient_eq nonzero, value, value]
      exact ⟨.number _, rfl⟩
    · split
      · rename_i one
        rw [eq_of_beq one, div_one]
        exact ⟨hm, rfl⟩
      · rw [value] at fractionValue
        exact ⟨fraction, fractionValue⟩
  · exact ⟨fraction, fractionValue⟩

/-- The factors of a term evaluated in the first scope. -/
theorem evaluateProduct_splits {fs : List (Factor (Node α))}
    (h : ∀ f ∈ fs, f.Admitted .plain (s.union t))
    (each : ∀ f ∈ realFactors fs, (Node.power f).Splits s t) {k : Node α}
    (hk : k.Admitted .plain t) :
    ∃ m, evaluateProduct (some s) k fs = .ok m ∧ m.Admitted .plain t ∧
      m.value t = k.value t * factorsValue (s.union t) fs := by
  induction fs generalizing k with
  | nil =>
    refine ⟨k, ?_, hk, by rw [factorsValue_nil, mul_one]⟩
    rw [evaluateProduct]
    rfl
  | cons f fs ih =>
    obtain ⟨first, later⟩ := List.forall_mem_cons.1 h
    by_cases one : f.isOne = true
    · rw [realFactors_of_one one] at each
      obtain ⟨m, result, admitted, value⟩ := ih later each hk
      refine ⟨m, (evaluateProduct_one _ _ one _).trans result, admitted, ?_⟩
      rw [value, factorsValue_cons, Factor.value_of_isOne first one, one_mul]
    · rw [realFactors_of_real one] at each
      obtain ⟨⟨b, power, hb, powerValue⟩, rest⟩ := List.forall_mem_cons.1 each
      obtain ⟨r, multiplied, hr, product⟩ := multiply_spec hk hb
      obtain ⟨m, result, admitted, value⟩ := ih later rest hr
      refine ⟨m, ?_, admitted, ?_⟩
      · rw [evaluateProduct_cons _ _ (by simpa using one)]
        exact bind_eq_ok.2 ⟨b, power, bind_eq_ok.2 ⟨r, multiplied, result⟩⟩
      · rw [value, product, powerValue, value_power, factorsValue_cons, mul_assoc]

/-- A term evaluated in the first scope. -/
theorem product_splits {u : Term α (Node α)} (h : u.Admitted .plain (s.union t))
    (above : ∀ f ∈ u.realFactors, (Node.power f).Splits s t)
    (below : ∀ g ∈ u.realDivisors, (Node.power g).Splits s t) :
    (Node.product u).Splits s t := by
  obtain ⟨m, top, hm, topValue⟩ :=
    evaluateProduct_splits h.factors above (.number (s := t) u.numerator)
  obtain ⟨k, bottom, hk, bottomValue⟩ :=
    evaluateProduct_splits h.divisors below (.number (s := t) u.denominator)
  have nonzero : k.value t ≠ 0 := by
    rw [bottomValue, value]
    exact mul_ne_zero h.denominator (factorsValue_ne_zero h.nonzero)
  obtain ⟨admitted, value⟩ := evaluatedFraction_spec hm hk nonzero
  refine ⟨evaluatedFraction m k, ?_, admitted, ?_⟩
  · rw [evaluate_product, FieldScalar.ofValue_eq, FieldScalar.ofValue_eq]
    exact bind_eq_ok.2 ⟨m, top, bind_eq_ok.2 ⟨k, bottom, rfl⟩⟩
  · rw [value, topValue, bottomValue, value_product, Term.value_eq, Node.value, Node.value]

/-- Terms evaluated in the first scope and added to what can be added. -/
theorem evaluateSum_splits {ts : List (Term α (Node α))}
    (each : ∀ u ∈ ts, (Node.product u).Splits s t)
    (built : ∀ u ∈ ts, Yields (Built fun p (n : Node α) => n.Upright C p)
      ((Node.product u).evaluate (some s)))
    {k : Node α} (hk : k.Admitted .plain t) (start : Built (fun p (n : Node α) => n.Upright C p) k) :
    ∃ m, evaluateSum (some s) k ts = .ok m ∧ m.Admitted .plain t ∧
      m.value t = k.value t + termsValue (s.union t) ts := by
  induction ts generalizing k with
  | nil =>
    refine ⟨k, ?_, hk, by rw [termsValue_nil, add_zero]⟩
    rw [evaluateSum]
    rfl
  | cons u ts ih =>
    obtain ⟨⟨b, term, hb, termValue⟩, rest⟩ := List.forall_mem_cons.1 each
    obtain ⟨first, later⟩ := List.forall_mem_cons.1 built
    have summand := first b term
    obtain ⟨r, added, hr, sum⟩ := addable_spec hk hb start.addable summand.addable
    have total := built_add start.inside summand.inside r added
    obtain ⟨m, result, admitted, value⟩ := ih rest later hr total
    refine ⟨m, ?_, admitted, ?_⟩
    · rw [evaluateSum_cons]
      exact bind_eq_ok.2 ⟨b, term, bind_eq_ok.2 ⟨r, added, result⟩⟩
    · rw [value, sum, termValue, value_product, termsValue_cons, add_assoc]

omit [ExactScalar α] in
theorem var_splits {v : Variable} {x : α} (negative : Bool)
    (bound : (s.union t).get v.name = .ok (some x)) : (Node.var v negative).Splits s t := by
  have found := Scope.lookup_of_get bound
  rcases Scope.get_of_union bound with first | ⟨free, second⟩
  · refine ⟨ofValue (if negative then -x else x), ?_, .number _, ?_⟩
    · rw [Node.evaluate]
      exact bind_eq_ok.2 ⟨some x, first, rfl⟩
    · rw [FieldScalar.ofValue_eq, value, value, found]
      rfl
  · refine ⟨.var v negative, ?_, .var v negative x second, ?_⟩
    · rw [Node.evaluate]
      exact bind_eq_ok.2 ⟨none, free, rfl⟩
    · rw [value, value, found, Scope.lookup_of_get second]

omit [ExactScalar α] in
theorem constant_splits (c : Constant) (negative : Bool)
    (collapsed : (s.union t).collapseConstants = true) :
    (Node.constant c negative).Splits s t := by
  cases first : s.collapseConstants with
  | true =>
    refine ⟨ofValue (if negative then -Scalar.constant c else Scalar.constant c), ?_, .number _, ?_⟩
    · rw [Node.evaluate, evaluatedConstant]
      simp [first, pure, Except.pure]
    · rw [FieldScalar.ofValue_eq, value, value]
  | false =>
    have second : t.collapseConstants = true := by
      rwa [Scope.union, first, Bool.false_or] at collapsed
    refine ⟨.constant c negative, ?_, .constant c negative second, rfl⟩
    rw [Node.evaluate, evaluatedConstant]
    simp [first, pure, Except.pure]

omit [ExactScalar α] in
theorem unary_splits (f : Unary) {x : Node α} (argument : x.Splits s t) :
    (Node.unary f x).Splits s t := by
  obtain ⟨y, result, hy, same⟩ := argument
  rw [Splits, Node.evaluate, result, value, ← same]
  cases y with
  | number v =>
    refine ⟨_, rfl, .number _, ?_⟩
    rw [FieldScalar.ofValue_eq]
    rfl
  | _ => exact ⟨_, rfl, .unary f _ hy, rfl⟩

omit [ExactScalar α] in
theorem binary_splits (f : Binary) {x y : Node α} (left : x.Splits s t) (right : y.Splits s t) :
    (Node.binary f x y).Splits s t := by
  obtain ⟨v, result, hv, same⟩ := left
  obtain ⟨w, result', hw, same'⟩ := right
  rw [Splits, Node.evaluate, result, result', value, ← same, ← same']
  have kept : (Node.binary f v w).Admitted .plain t := .binary f v w hv hw
  cases v with
  | number a =>
    cases w with
    | number b =>
      refine ⟨_, rfl, .number _, ?_⟩
      rw [FieldScalar.ofValue_eq]
      rfl
    | _ => exact ⟨_, rfl, kept, rfl⟩
  | _ => exact ⟨_, rfl, kept, rfl⟩

/-- What the first stage leaves of an upright expression has its value in the second one. -/
theorem Upright.splits {n : Node α} (h : n.Upright C p) (admitted : n.Admitted .plain (s.union t)) :
    n.Splits s t := by
  induction admitted generalizing p with
  | number x => exact ⟨.number x, by rw [Node.evaluate]; rfl, .number x, rfl⟩
  | constant c negative collapsed => exact constant_splits c negative collapsed
  | var v negative x bound => exact var_splits negative bound
  | power f _ _ defined base exponent =>
    obtain ⟨upright, allowed⟩ := upright_power.1 h
    obtain ⟨b, result, hb, same⟩ := base upright
    obtain ⟨z, number⟩ := allowed.exists_cast
    obtain ⟨e, whole⟩ := f
    dsimp only at number result same
    subst number
    have integral := defined.whole
    have bounded := defined.defined
    rw [Factor.order, value] at bounded
    rw [value] at integral
    dsimp only at bounded
    rw [← same] at bounded
    obtain ⟨raised, power⟩ := evaluatedPower_spec hb integral bounded
    refine ⟨_, ?_, raised, ?_⟩
    · rw [evaluate_power]
      refine bind_eq_ok.2 ⟨b, result, bind_eq_ok.2 ⟨.number z, ?_, rfl⟩⟩
      rw [Node.evaluate]
      rfl
    · rw [power, same, value_power, Factor.value, Factor.order, value]
  | product u denominator factors divisors nonzero listed listed' above below =>
    obtain ⟨upper, lower⟩ := CarriesOver.factors h
    refine product_splits (.product u denominator factors divisors nonzero listed listed') ?_ ?_
    · exact fun f hf => above f (Term.mem_factors hf) (upper f hf)
    · exact fun g hg => below g (Term.mem_divisors hg) (lower g hg)
  | sum ts _ each =>
    have terms := upright_sum.1 h
    have splits : ∀ u ∈ ts, (Node.product u).Splits s t := fun u hu => each u hu (terms u hu)
    have built : ∀ u ∈ ts, Yields (Built fun p (n : Node α) => n.Upright C p)
        ((Node.product u).evaluate (some s)) := by
      intro u hu
      obtain ⟨upper, lower⟩ := CarriesOver.factors (terms u hu)
      exact built_evaluate_product (R := fun p (n : Node α) => n.Upright C p)
        (fun f hf => (upper f hf).evaluate) fun g hg => (lower g hg).evaluate
    rw [Splits, value_sum]
    cases ts with
    | nil =>
      refine ⟨.number 0, ?_, .number 0, by rw [value, termsValue_nil]⟩
      rw [Node.evaluate]
      rfl
    | cons u ts =>
      obtain ⟨⟨b, term, hb, termValue⟩, rest⟩ := List.forall_mem_cons.1 splits
      obtain ⟨first, later⟩ := List.forall_mem_cons.1 built
      obtain ⟨m, result, admitted, total⟩ := evaluateSum_splits rest later hb (first b term)
      refine ⟨m, ?_, admitted, ?_⟩
      · rw [evaluate_sum_cons]
        exact bind_eq_ok.2 ⟨b, term, result⟩
      · rw [total, termValue, value_product, termsValue_cons]
  | unary f x _ ih => exact unary_splits f (ih (CarriesOver.unary.1 h))
  | binary f x y _ _ left right =>
    obtain ⟨first, second⟩ := CarriesOver.binary.1 h
    exact binary_splits f (left first) (right second)

end Node

end SymbolicAlgebra
