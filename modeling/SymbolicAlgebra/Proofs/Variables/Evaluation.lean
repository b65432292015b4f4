/-
  What evaluation reads
  =====================
  An expression reports its variables by one walk of the tree and is evaluated by
  another; both pass over the factors that are certainly one.

  **`Node.evaluate_determined`**: two scopes that agree on the reported variables give
  one result, and a value for any other name changes nothing.
  **`Node.evaluate_total`**: once every reported variable is bound, evaluation
  succeeds with a plain number.
-/
import SymbolicAlgebra.Proofs.Value.Rational
import SymbolicAlgebra.Binary64.Arithmetic
import SymbolicAlgebra.Node.Evaluate
import SymbolicAlgebra.Proofs.Checked
import SymbolicAlgebra.Proofs.Variables.Over

namespace SymbolicAlgebra

namespace Node

variable {α : Type} [Scalar α] {s t : Scope α}

/-! ### Scopes that agree -/

/-- Scopes that agree on the reported variables give one result. -/
theorem evaluate_congr (flag : s.collapseConstants = t.collapseConstants) {n : Node α}
    (agree : n.Over fun name => s.get name = t.get name) :
    n.evaluate (some s) = n.evaluate (some t) := by
  induction n using Node.induction with
  | number x => simp only [evaluate]
  | constant c negative => simp only [evaluate, evaluatedConstant, Option.map_some, flag]
  | var v negative =>
    simp only [evaluate, evaluatedVariable]
    rw [over_var.1 agree]
  | power f base exponent =>
    obtain ⟨below, above⟩ := Factor.over_iff.1 agree
    rw [evaluate_power, evaluate_power, base below, exponent above]
  | product u above below =>
    have side : ∀ fs : List (Factor (Node α)),
        (∀ f ∈ fs, (Node.power f).evaluate (some s) = (Node.power f).evaluate (some t)) →
        ∀ start, fs.foldlM (fun (m : Node α) f => do m.multiply (← (Node.power f).evaluate (some s))) start =
          fs.foldlM (fun (m : Node α) f => do m.multiply (← (Node.power f).evaluate (some t))) start := by
      intro fs each
      apply foldlM_congr
      intro f hf m
      rw [each f hf]
    obtain ⟨upper, lower⟩ := Term.over_iff.1 agree
    simp only [evaluate_product, evaluateProduct_foldlM]
    rw [side (realFactors u.factors) fun f hf => above f (List.mem_filter.1 hf).1 (upper f hf),
      side (realFactors u.divisors) fun f hf => below f (List.mem_filter.1 hf).1 (lower f hf)]
  | sum ts each =>
    have terms : ∀ u ∈ ts,
        (Node.product u).evaluate (some s) = (Node.product u).evaluate (some t) :=
      fun u hu => each u hu (over_sum.1 agree u hu)
    cases ts with
    | nil => simp only [evaluate]
    | cons u us =>
      rw [List.forall_mem_cons] at terms
      rw [evaluate_sum_cons, evaluate_sum_cons, terms.1]
      congr 1
      funext first
      rw [evaluateSum_foldlM, evaluateSum_foldlM]
      apply foldlM_congr
      intro v hv sum
      rw [terms.2 v hv]
  | unary f x ih => simp only [evaluate, ih (over_unary.1 agree)]
  | binary f x y left right =>
    obtain ⟨first, second⟩ := over_binary.1 agree
    simp only [evaluate, left first, right second]

/-- Scopes that agree on the reported variables evaluate an expression alike, so binding or
removing any other name makes no difference. -/
theorem evaluate_determined (n : Node α) (s : Scope α) :
    (∀ t : Scope α, s.collapseConstants = t.collapseConstants →
      (∀ name ∈ n.«variables», s.get name = t.get name) →
        n.evaluate (some s) = n.evaluate (some t)) ∧
    ∀ name, name ∉ n.«variables» →
      (∀ value t, s.set name value = .ok t → n.evaluate (some t) = n.evaluate (some s)) ∧
      ∀ bound t, s.remove name = .ok (bound, t) →
        n.evaluate (some t) = n.evaluate (some s) := by
  refine ⟨fun t flag agree => evaluate_congr flag agree, ?_⟩
  intro name silent
  have apart : ∀ other ∈ n.«variables», other ≠ name := by
    rintro other reported rfl
    exact silent reported
  constructor
  · intro value t bound
    have flag : t.collapseConstants = s.collapseConstants := by rw [Scope.eq_of_set bound]
    exact evaluate_congr flag fun other reported => Scope.get_of_set bound (apart other reported)
  · intro bound t removed
    have flag : t.collapseConstants = s.collapseConstants := by
      rw [Scope.eq_of_remove removed]
    exact evaluate_congr flag fun other reported =>
      Scope.get_of_remove removed (apart other reported)

/-- A factor `y ^ 0` is not reported, whatever the scopes say of `y`. -/
theorem evaluate_determined_unit :
    let x : Node ℚ := .var ⟨'x', 0⟩ false
    let y : Node ℚ := .var ⟨'y', 0⟩ true
    let n : Node ℚ := .product ⟨3, 2, [⟨x, .number 2⟩, ⟨y, .number 0⟩],
      [⟨.sum [⟨1, 1, [⟨x, .number 1⟩], []⟩, ⟨1, 1, [], []⟩], .number 1⟩]⟩
    let s : Scope ℚ := { values := [("x", 2), ("y", 5)] }
    let t : Scope ℚ := { values := [("z", 7), ("x", 2)] }
    (∀ name ∈ n.«variables», s.get name = t.get name) ∧ "y" ∉ n.«variables» ∧
      n.evaluate (some s) = n.evaluate (some t) := by
  intro x y n s t
  have agree : ∀ name ∈ n.«variables», s.get name = t.get name := by decide +kernel
  exact ⟨agree, by decide +kernel, (evaluate_determined n s).1 t rfl agree⟩

/-! ### Scopes that bind every variable -/

theorem evaluatedPower_numeric (b x : α) :
    ∃ y, evaluatedPower (.number b) (.number x) = .number y := by
  unfold evaluatedPower
  dsimp only
  split
  · exact ⟨_, rfl⟩
  · split
    · exact ⟨_, rfl⟩
    · exact ⟨_, rfl⟩

theorem evaluatedFraction_numeric (n d : α) :
    ∃ y, evaluatedFraction (.number n) (.number d) = .number y := by
  unfold evaluatedFraction
  dsimp only
  split
  · exact ⟨_, rfl⟩
  · exact ⟨_, rfl⟩

/-- Factors that evaluate to numbers make a product that does. -/
theorem multiplied_numeric {fs : List (Factor (Node α))}
    (each : ∀ f ∈ fs, ∃ x, (Node.power f).evaluate (some s) = .ok (.number x)) (start : α) :
    ∃ x, fs.foldlM (fun (m : Node α) f => do m.multiply (← (Node.power f).evaluate (some s)))
      (.number start) = .ok (.number x) := by
  have step : ∀ f ∈ fs, ∀ m : Node α, (∃ x, m = .number x) →
      ∃ k, (do m.multiply (← (Node.power f).evaluate (some s))) = Except.ok k ∧
        ∃ x, k = .number x := by
    rintro f hf m ⟨x, rfl⟩
    obtain ⟨y, evaluated⟩ := each f hf
    exact ⟨_, bind_eq_ok.2 ⟨_, evaluated, rfl⟩, _, rfl⟩
  obtain ⟨k, result, x, rfl⟩ := foldlM_exists step ⟨start, rfl⟩
  exact ⟨x, result⟩

/-- Terms that evaluate to numbers make a sum that does. -/
theorem added_numeric {ts : List (Term α (Node α))}
    (each : ∀ t ∈ ts, ∃ x, (Node.product t).evaluate (some s) = .ok (.number x)) (start : α) :
    ∃ x, ts.foldlM (fun (m : Node α) t => do m.add (← (Node.product t).evaluate (some s)))
      (.number start) = .ok (.number x) := by
  have step : ∀ t ∈ ts, ∀ m : Node α, (∃ x, m = .number x) →
      ∃ k, (do m.add (← (Node.product t).evaluate (some s))) = Except.ok k ∧
        ∃ x, k = .number x := by
    rintro t ht m ⟨x, rfl⟩
    obtain ⟨y, evaluated⟩ := each t ht
    exact ⟨_, bind_eq_ok.2 ⟨_, evaluated, rfl⟩, _, rfl⟩
  obtain ⟨k, result, x, rfl⟩ := foldlM_exists step ⟨start, rfl⟩
  exact ⟨x, result⟩

/-- An expression evaluates to a number where all its variables have values. -/
theorem evaluate_numeric (collapsed : s.collapseConstants = true) {n : Node α}
    (bound : n.Over fun name => ∃ x, s.get name = .ok (some x)) :
    ∃ x, n.evaluate (some s) = .ok (.number x) := by
  induction n using Node.induction with
  | number x =>
    rw [evaluate]
    exact ⟨x, rfl⟩
  | constant c negative =>
    simp only [evaluate, evaluatedConstant, Option.map_some, collapsed]
    exact ⟨_, rfl⟩
  | var v negative =>
    obtain ⟨x, found⟩ := over_var.1 bound
    simp only [evaluate, evaluatedVariable, found]
    exact ⟨_, rfl⟩
  | power f base exponent =>
    obtain ⟨upper, lower⟩ := Factor.over_iff.1 bound
    obtain ⟨b, base⟩ := base upper
    obtain ⟨x, exponent⟩ := exponent lower
    obtain ⟨y, power⟩ := evaluatedPower_numeric b x
    refine ⟨y, ?_⟩
    rw [evaluate_power, base, exponent, ← power]
    rfl
  | product t above below =>
    obtain ⟨upper, lower⟩ := Term.over_iff.1 bound
    obtain ⟨x, numerator⟩ := multiplied_numeric
      (fun f hf => above f (List.mem_filter.1 hf).1 (upper f hf)) (Scalar.unsignedZero t.numerator)
    obtain ⟨y, denominator⟩ := multiplied_numeric
      (fun f hf => below f (List.mem_filter.1 hf).1 (lower f hf)) (Scalar.unsignedZero t.denominator)
    obtain ⟨z, fraction⟩ := evaluatedFraction_numeric x y
    refine ⟨z, ?_⟩
    rw [evaluate_product, evaluateProduct_foldlM, evaluateProduct_foldlM]
    exact bind_eq_ok.2 ⟨_, numerator, bind_eq_ok.2 ⟨_, denominator, congrArg Except.ok fraction⟩⟩
  | sum ts each =>
    have terms : ∀ t ∈ ts, ∃ x, (Node.product t).evaluate (some s) = .ok (.number x) :=
      fun t ht => each t ht (over_sum.1 bound t ht)
    cases ts with
    | nil =>
      rw [evaluate]
      exact ⟨0, rfl⟩
    | cons t ts =>
      rw [List.forall_mem_cons] at terms
      obtain ⟨⟨x, first⟩, rest⟩ := terms
      obtain ⟨y, sum⟩ := added_numeric rest x
      refine ⟨y, ?_⟩
      rw [evaluate_sum_cons]
      refine bind_eq_ok.2 ⟨_, first, ?_⟩
      rw [evaluateSum_foldlM]
      exact sum
  | unary f x ih =>
    obtain ⟨v, argument⟩ := ih (over_unary.1 bound)
    rw [evaluate, argument]
    exact ⟨_, rfl⟩
  | binary f x y left right =>
    obtain ⟨first, second⟩ := over_binary.1 bound
    obtain ⟨v, left⟩ := left first
    obtain ⟨w, right⟩ := right second
    rw [evaluate, left, right]
    exact ⟨_, rfl⟩

/-! ### Expressions without variables -/

/-- An expression without variables does not read the values of a scope. -/
theorem evaluate_of_isConstant {n : Node α} (constant : n.isConstant = true)
    (flag : s.collapseConstants = t.collapseConstants) :
    n.evaluate (some s) = n.evaluate (some t) :=
  evaluate_congr flag (over_of_isConstant constant)

theorem toNumber_of_scalar? {n : Node α} {x : α} (shown : n.scalar? = some x) :
    n.toNumber = .ok x := by
  rw [toNumber, shown]
  rfl

theorem toNumber_of_evaluate {n : Node α} {x : α} (hidden : n.scalar? = none)
    (constant : n.isConstant = true) (evaluated : n.evaluate (some ⟨[], true⟩) = .ok (.number x)) :
    n.toNumber = .ok x := by
  rw [toNumber, hidden]
  dsimp only
  rw [if_pos constant, evaluated]
  rfl

/-- A floating-point constant is not zero, so it evaluates to itself. -/
theorem evaluate_scalar? {s : Scope Float} (collapsed : s.collapseConstants = true)
    {n : Node Float} {x : Float} (shown : n.scalar? = some x) :
    n.evaluate (some s) = .ok (.number x) := by
  cases n with
  | number y =>
    cases shown
    rw [evaluate]
    rfl
  | constant c negative =>
    cases shown
    rw [evaluate, evaluatedConstant, Option.map_some, collapsed]
    cases c <;> cases negative <;> rfl
  | _ => cases shown

/-- Evaluation succeeds with a plain number wherever every reported variable is bound and
constants have values. An expression without variables reports none, and it evaluates to the
number it stands for. -/
theorem evaluate_total (n : Node Float) :
    (∀ s : Scope Float, s.collapseConstants = true →
      (∀ name ∈ n.«variables», ∃ x, s.get name = .ok (some x)) →
        ∃ x, n.evaluate (some s) = .ok (.number x)) ∧
    (n.isConstant = true → n.«variables» = [] ∧ ∃ x, n.toNumber = .ok x ∧
      ∀ s : Scope Float, s.collapseConstants = true →
        n.evaluate (some s) = .ok (.number x)) := by
  refine ⟨fun s collapsed bound => evaluate_numeric collapsed bound, fun constant => ?_⟩
  have silent : n.Over fun _ => False := over_of_isConstant constant
  refine ⟨List.eq_nil_iff_forall_not_mem.2 silent, ?_⟩
  cases shown : n.scalar? with
  | some x => exact ⟨x, toNumber_of_scalar? shown, fun s collapsed => evaluate_scalar? collapsed shown⟩
  | none =>
    obtain ⟨x, evaluated⟩ :=
      evaluate_numeric (s := (⟨[], true⟩ : Scope Float)) rfl (over_of_isConstant constant)
    refine ⟨x, toNumber_of_evaluate shown constant evaluated, ?_⟩
    intro s collapsed
    rw [evaluate_of_isConstant (t := ⟨[], true⟩) constant collapsed, evaluated]

/-- `max((-x) ^ e, x!) + pi ^ x / e` at `x = 3`, and `gcf(pi, e!) ^ pi`. -/
theorem evaluate_total_calls :
    let x : Node Float := .var ⟨'x', 0⟩ false
    let pi : Node Float := .constant .pi false
    let e : Node Float := .constant .e false
    let n : Node Float := .sum
      [⟨1, 1, [⟨.binary .max (.power ⟨.var ⟨'x', 0⟩ true, e⟩) (.unary .factorial x), pi⟩], []⟩,
        ⟨1, 1, [⟨pi, x⟩], [⟨e, pi⟩]⟩]
    let m : Node Float := .power ⟨.binary .gcf pi (.unary .factorial e), pi⟩
    let s : Scope Float := { values := [("x", 3)], collapseConstants := true }
    (∃ y, n.evaluate (some s) = .ok (.number y)) ∧ m.isConstant = true ∧ m.«variables» = [] ∧
      ∃ y, m.toNumber = .ok y ∧ m.evaluate (some s) = .ok (.number y) := by
  intro x pi e n m s
  have bound : ∀ name ∈ n.«variables», ∃ y, s.get name = .ok (some y) := by
    intro name reported
    have members : n.«variables» = ["x", "x", "x"] := rfl
    rw [members] at reported
    obtain rfl : name = "x" := by simpa using reported
    exact ⟨3, rfl⟩
  have constant : m.isConstant = true := rfl
  obtain ⟨silent, y, known, everywhere⟩ := (evaluate_total m).2 constant
  exact ⟨(evaluate_total n).1 s rfl bound, constant, silent, y, known, everywhere s rfl⟩

end Node

end SymbolicAlgebra
