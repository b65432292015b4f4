/-
  Products, quotients and signs of values
  =======================================
  Multiplying, negating and dividing expressions does to their values what it says:
  where two expressions are defined, their product evaluates to the product of their
  values, the opposite to the opposite, and the quotient to the quotient unless the
  divisor is zero. A term built from a fraction and any nodes above and below the bar
  evaluates to the fraction times the values above divided by those below
  (**`Node.evaluate_homomorphic`**).

  How a product is formed differs from one kind of node to the next: signs of leaves,
  squares of variables, sums multiplied out, terms merged. All of it is settled by
  `Node.multiply_spec`; that evaluation finds the value of any admitted node is
  `Node.evaluate_eq`.
-/
import SymbolicAlgebra.Proofs.Value.Arithmetic
import SymbolicAlgebra.Proofs.Value.Rational

namespace SymbolicAlgebra

variable {α : Type} [FieldScalar α] [ExactScalar α] {s : Scope α}

namespace Node

/-- The expression has the value in the scope. -/
def EvaluatesTo (s : Scope α) (n : Node α) (x : α) : Prop :=
  n.evaluate (some s) = .ok (.number x)

/-- An expression that is defined has one value. -/
theorem Admitted.evaluatesTo_iff {D : Discipline} {n : Node α} (h : n.Admitted D s) {x : α} :
    n.EvaluatesTo s x ↔ n.value s = x := by
  rw [EvaluatesTo, evaluate_eq h]
  simp

/-- Expressions that are defined have one list of values. -/
theorem evaluatesTo_all {D : Discipline} {ns : List (Node α)} {xs : List α}
    (admitted : ∀ n ∈ ns, n.Admitted D s) (values : List.Forall₂ (EvaluatesTo s) ns xs) :
    ns.map (value s) = xs := by
  induction values with
  | nil => rfl
  | cons head _ ih =>
    obtain ⟨first, others⟩ := List.forall_mem_cons.1 admitted
    rw [List.map_cons, first.evaluatesTo_iff.1 head, ih others]

/-- A term built from nodes evaluates to the fraction of their values. -/
theorem evaluatesTo_ofNodes {D : Discipline} {n d : α} {above below : List (Node α)} {xs ys : List α}
    (denominator : d ≠ 0) (ha : ∀ m ∈ above, m.Admitted D s) (hb : ∀ m ∈ below, m.Admitted D s)
    (left : List.Forall₂ (EvaluatesTo s) above xs) (right : List.Forall₂ (EvaluatesTo s) below ys)
    (nonzero : ∀ y ∈ ys, y ≠ 0) :
    (Node.product (Term.ofNodes n d above below)).EvaluatesTo s (n / d * (xs.prod / ys.prod)) := by
  obtain rfl := evaluatesTo_all ha left
  obtain rfl := evaluatesTo_all hb right
  obtain ⟨admitted, value⟩ := Term.ofNodes_spec (n := n) denominator ha hb
    fun m hm => nonzero _ (List.mem_map_of_mem hm)
  rw [Admitted.evaluatesTo_iff admitted, value_product, value, mul_div_mul_comm]

/-- Multiplication, negation and division act on values as they do on numbers, and a term has the
value of its fraction times the values above the bar divided by those below. -/
theorem evaluate_homomorphic {m n : Node α} (hm : m.Admitted .plain s) (hn : n.Admitted .plain s) :
    (∃ x y, m.EvaluatesTo s x ∧ n.EvaluatesTo s y ∧
      (∃ p, m.multiply n = .ok p ∧ p.EvaluatesTo s (x * y)) ∧
      m.negate.EvaluatesTo s (-x) ∧
      (y ≠ 0 → ∃ q, m.divide n = .ok q ∧ q.EvaluatesTo s (x / y))) ∧
    ∀ (c d : α) (above below : List (Node α)) (xs ys : List α), d ≠ 0 →
      (∀ k ∈ above, k.Admitted .plain s) → (∀ k ∈ below, k.Admitted .plain s) →
      List.Forall₂ (EvaluatesTo s) above xs → List.Forall₂ (EvaluatesTo s) below ys →
      (∀ y ∈ ys, y ≠ 0) →
      (Node.product (Term.ofNodes c d above below)).EvaluatesTo s (c / d * (xs.prod / ys.prod)) := by
  refine ⟨⟨m.value s, n.value s, evaluate_eq hm, evaluate_eq hn, ?_, ?_, fun nonzero => ?_⟩, ?_⟩
  · obtain ⟨p, multiplied, admitted, value⟩ := multiply_spec hm hn
    exact ⟨p, multiplied, admitted.evaluatesTo_iff.2 value⟩
  · obtain ⟨admitted, value⟩ := negate_spec hm
    exact admitted.evaluatesTo_iff.2 value
  · obtain ⟨q, divided, admitted, value⟩ := divide_spec hm hn nonzero
    exact ⟨q, divided, admitted.evaluatesTo_iff.2 value⟩
  · intro c d above below xs ys denominator ha hb left right nonzero
    exact evaluatesTo_ofNodes denominator ha hb left right nonzero

/-- A fraction with a negative power above the bar against a sum, and a term with both of them
below the bar, at `x = -2`. -/
theorem evaluate_homomorphic_rational :
    let x : Node ℚ := .var ⟨'x', 0⟩ false
    let m : Node ℚ := .product ⟨6, 4, [⟨x, .number (-1)⟩], [⟨x, .number 2⟩]⟩
    let n : Node ℚ := .sum [⟨1, 1, [⟨x, .number 2⟩], []⟩, ⟨3, 1, [], []⟩]
    let s : Scope ℚ := { values := [("x", -2)] }
    m.Admitted .plain s ∧ n.Admitted .plain s ∧
      (∃ p, m.multiply n = .ok p ∧ p.EvaluatesTo s (-21 / 16)) ∧
      m.negate.EvaluatesTo s (3 / 16) ∧
      (∃ q, m.divide n = .ok q ∧ q.EvaluatesTo s (-3 / 112)) ∧
      (Node.product (Term.ofNodes 5 2 [x] [m, n])).EvaluatesTo s (80 / 21) := by
  intro x m n s
  have bound : s.get (Variable.name ⟨'x', 0⟩) = .ok (some (-2)) := by decide +kernel
  have var : x.Admitted .plain s := .var _ _ (-2) bound
  have size : x.value s = -2 := by decide +kernel
  have nonzero : x.value s ≠ 0 := by
    rw [size]
    decide
  have power : ∀ z : ℚ, Scalar.isWhole z = true → Factor.Admitted .plain s ⟨x, .number z⟩ := by
    intro z whole
    refine .power _ var (.number z) ⟨?_, fun zero => absurd zero nonzero, rfl, trivial⟩
    rwa [Node.value]
  have none : ∀ f ∈ ([] : List (Factor (Node ℚ))), f.Admitted .plain s ∧ f.value s ≠ 0 := by
    intro f hf
    cases hf
  have first : m.Admitted .plain s := by
    refine Term.admitted_iff.2 ⟨by decide, ?_, ?_, ?_, fun _ _ => trivial, fun _ _ => trivial⟩
    · exact List.forall_mem_singleton.2 (power (-1) (by decide +kernel))
    · exact List.forall_mem_singleton.2 (power 2 (by decide +kernel))
    · exact List.forall_mem_singleton.2 (zpow_ne_zero _ nonzero)
  have second : n.Admitted .plain s := by
    refine admitted_sum.2 (List.forall_mem_cons.2 ⟨?_, List.forall_mem_singleton.2 ?_⟩)
    · exact Term.admitted_iff.2 ⟨by decide,
        List.forall_mem_singleton.2 (power 2 (by decide +kernel)), fun f hf => (none f hf).1,
        fun f hf => (none f hf).2, fun _ _ => trivial, fun _ _ => trivial⟩
    · exact Term.admitted_iff.2 ⟨by decide, fun f hf => (none f hf).1, fun f hf => (none f hf).1,
        fun f hf => (none f hf).2, fun _ _ => trivial, fun _ _ => trivial⟩
  have left : m.EvaluatesTo s (-3 / 16) := first.evaluatesTo_iff.2 (by decide +kernel)
  have right : n.EvaluatesTo s 7 := second.evaluatesTo_iff.2 (by decide +kernel)
  have single : x.EvaluatesTo s (-2) := var.evaluatesTo_iff.2 size
  obtain ⟨⟨y, z, hy, hz, times, opposite, divided⟩, term⟩ := evaluate_homomorphic first second
  obtain rfl : -3 / 16 = y := (first.evaluatesTo_iff.1 left).symm.trans (first.evaluatesTo_iff.1 hy)
  obtain rfl : 7 = z := (second.evaluatesTo_iff.1 right).symm.trans (second.evaluatesTo_iff.1 hz)
  have built := term 5 2 [x] [m, n] [-2] [-3 / 16, 7] (by decide) (List.forall_mem_singleton.2 var)
    (List.forall_mem_cons.2 ⟨first, List.forall_mem_singleton.2 second⟩)
    (.cons single .nil) (.cons left (.cons right .nil))
    (List.forall_mem_cons.2 ⟨by norm_num, List.forall_mem_singleton.2 (by norm_num)⟩)
  have product : (-3 / 16 * 7 : ℚ) = -21 / 16 := by norm_num
  have negated : -(-3 / 16 : ℚ) = 3 / 16 := by norm_num
  have quotient : (-3 / 16 / 7 : ℚ) = -3 / 112 := by norm_num
  have fraction : (5 / 2 * (([-2] : List ℚ).prod / ([-3 / 16, 7] : List ℚ).prod)) = 80 / 21 := by
    norm_num
  rw [product] at times
  rw [negated] at opposite
  rw [quotient] at divided
  rw [fraction] at built
  exact ⟨first, second, times, opposite, divided (by norm_num), built⟩

end Node

end SymbolicAlgebra
