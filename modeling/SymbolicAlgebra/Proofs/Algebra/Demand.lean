/-
  What is asked of the parts that count
  =====================================
  A factor that is certainly one does not count. Much that is said of an expression is
  said of its numbers, its powers, its terms and its sums wherever they stand, such
  factors aside: a `Demand` asks something of each of these, and an expression meets it
  (`Node.Meets`) when everything in it that counts does what is asked.

  An expression is *comparable* when every number in it that counts equals itself, as
  every number but an undefined one does (`Node.Comparable`).
-/
import SymbolicAlgebra.Node.Predicate

namespace SymbolicAlgebra

/-- The number equals itself, as every number but an undefined one does. -/
def Scalar.SelfEqual {α : Type} [Scalar α] (x : α) : Prop := (x == x) = true

/-- What is asked of the numbers, powers, terms and sums of an expression. -/
structure Demand (α : Type) where
  number : α → Prop
  power : Factor (Node α) → Prop
  term : Term α (Node α) → Prop
  sum : List (Term α (Node α)) → Prop

variable {α : Type} [Scalar α] {D : Demand α}

/-- The factors on both sides of the bar that count. -/
def Term.realParts (t : Term α (Node α)) : List (Factor (Node α)) := t.realFactors ++ t.realDivisors

theorem Term.forall_realParts {t : Term α (Node α)} {P : Factor (Node α) → Prop} :
    (∀ f ∈ t.realParts, P f) ↔ (∀ f ∈ t.realFactors, P f) ∧ ∀ g ∈ t.realDivisors, P g :=
  List.forall_mem_append

theorem Term.mem_realParts {t : Term α (Node α)} {f : Factor (Node α)} :
    f ∈ t.realParts ↔ f ∈ t.factors ++ t.divisors ∧ f.isOne = false := by
  rw [realParts, realFactors, realDivisors, SymbolicAlgebra.realFactors,
    SymbolicAlgebra.realFactors, ← List.filter_append, List.mem_filter, Bool.not_eq_true']

/-! ### Questions about terms -/

namespace Node

/-- How often the factors change the sign, as a question of the factors that count. -/
theorem oddSigns_eq (fs : List (Factor (Node α))) :
    oddSigns fs = (realFactors fs).foldr (fun f odd => (Node.power f).isNegative != odd) false := by
  induction fs with
  | nil => rfl
  | cons f fs ih =>
    rw [oddSigns, ih]
    by_cases one : f.isOne = true
    · rw [realFactors_of_one one, show (f.exponent.isZero || f.base.isOne) = true from one]
      simp
    · rw [realFactors_of_real one, List.foldr_cons, isNegative]
      simp only [Bool.not_eq_true] at one
      rw [show (f.exponent.isZero || f.base.isOne) = false from one]
      simp

theorem allOne_eq_isEmpty (fs : List (Factor (Node α))) : allOne fs = (realFactors fs).isEmpty := by
  rw [allOne_eq]
  induction fs with
  | nil => rfl
  | cons f fs ih =>
    by_cases one : f.isOne = true
    · rw [realFactors_of_one one, List.all_cons, one, Bool.true_and, ih]
    · rw [realFactors_of_real one, List.all_cons]
      simp [one]

end Node

namespace Term

theorem isOne_eq (t : Term α (Node α)) : t.isOne =
    (t.numerator == t.denominator && t.realFactors.isEmpty && t.realDivisors.isEmpty) := by
  obtain ⟨n, d, fs, gs⟩ := t
  rw [isOne, Node.isOne, Node.allOne_eq_isEmpty, Node.allOne_eq_isEmpty]
  rfl

theorem isZero_eq (t : Term α (Node α)) : t.isZero =
    (!(t.denominator == 0) && (t.numerator == 0 || t.realFactors.any Factor.isZero)) := by
  obtain ⟨n, d, fs, gs⟩ := t
  rw [isZero, Node.isZero, Node.someZero_eq]
  rfl

theorem isNegative_eq (t : Term α (Node α)) : (Node.product t).isNegative =
    (Scalar.lt t.numerator 0 !=
      (t.realFactors.foldr (fun f odd => (Node.power f).isNegative != odd) false !=
        t.realDivisors.foldr (fun f odd => (Node.power f).isNegative != odd) false)) := by
  obtain ⟨n, d, fs, gs⟩ := t
  rw [Node.isNegative, Node.oddSigns_eq, Node.oddSigns_eq]
  rfl

end Term

/-! ### Parts that count -/

/-- The nodes of a tree and everything in them that counts, factors by their bases and exponents. -/
theorem Node.induction_parts {motive : Node α → Prop} (number : ∀ value, motive (.number value))
    (constant : ∀ name negative, motive (.constant name negative))
    (var : ∀ name negative, motive (.var name negative))
    (power : ∀ f : Factor (Node α), motive f.base → motive f.exponent → motive (.power f))
    (product : ∀ t : Term α (Node α), (∀ f ∈ t.realParts, motive f.base ∧ motive f.exponent) →
      motive (.product t))
    (sum : ∀ ts : List (Term α (Node α)),
      (∀ t ∈ ts, ∀ f ∈ t.realParts, motive f.base ∧ motive f.exponent) → motive (.sum ts))
    (unary : ∀ f x, motive x → motive (.unary f x))
    (binary : ∀ f x y, motive x → motive y → motive (.binary f x y))
    (n : Node α) : motive n := by
  have inside : ∀ {t : Term α (Node α)} {P : Factor (Node α) → Prop}, (∀ f ∈ t.factors, P f) →
      (∀ g ∈ t.divisors, P g) → ∀ f ∈ t.realParts, P f := by
    intro t P above below
    rw [Term.forall_realParts]
    exact ⟨fun f hf => above f (List.mem_filter.1 hf).1, fun g hg => below g (List.mem_filter.1 hg).1⟩
  refine Node.rec (motive_1 := motive) (motive_2 := fun f => motive f.base ∧ motive f.exponent)
    (motive_3 := fun t => ∀ f ∈ t.realParts, motive f.base ∧ motive f.exponent)
    (motive_4 := fun ts => ∀ t ∈ ts, ∀ f ∈ t.realParts, motive f.base ∧ motive f.exponent)
    (motive_5 := fun fs => ∀ f ∈ fs, motive f.base ∧ motive f.exponent) number constant var
    (fun f parts => power f parts.1 parts.2) product sum unary binary (fun _ _ hb he => ⟨hb, he⟩)
    (fun _ _ _ _ above below => inside above below) ?_ ?_ ?_ ?_ n
  · intro t ht
    cases ht
  · exact fun _ _ first rest => List.forall_mem_cons.2 ⟨first, rest⟩
  · intro f hf
    cases hf
  · exact fun _ _ first rest => List.forall_mem_cons.2 ⟨first, rest⟩

/-- Everything in the expression that counts does what is asked. What is asked of the terms of a
sum is asked of the sum. -/
inductive Node.Meets (D : Demand α) : Node α → Prop
  | number (x : α) (holds : D.number x) : Meets D (.number x)
  | constant (c : Constant) (negative : Bool) : Meets D (.constant c negative)
  | var (v : Variable) (negative : Bool) : Meets D (.var v negative)
  | power (f : Factor (Node α)) (holds : D.power f) (base : Meets D f.base)
      (exponent : Meets D f.exponent) : Meets D (.power f)
  | product (t : Term α (Node α)) (holds : D.term t) (bases : ∀ f ∈ t.realParts, Meets D f.base)
      (exponents : ∀ f ∈ t.realParts, Meets D f.exponent) : Meets D (.product t)
  | sum (ts : List (Term α (Node α))) (holds : D.sum ts)
      (bases : ∀ t ∈ ts, ∀ f ∈ t.realParts, Meets D f.base)
      (exponents : ∀ t ∈ ts, ∀ f ∈ t.realParts, Meets D f.exponent) : Meets D (.sum ts)
  | unary (f : Unary) (x : Node α) (argument : Meets D x) : Meets D (.unary f x)
  | binary (f : Binary) (x y : Node α) (left : Meets D x) (right : Meets D y) :
      Meets D (.binary f x y)

/-- The base and the exponent do what is asked. -/
structure Factor.Meets (D : Demand α) (f : Factor (Node α)) : Prop where
  base : f.base.Meets D
  exponent : f.exponent.Meets D

namespace Node

theorem meets_number {x : α} : (Node.number x).Meets D ↔ D.number x := by
  constructor
  · intro h
    cases h with
    | number _ holds => exact holds
  · exact .number x

theorem meets_power {f : Factor (Node α)} : (Node.power f).Meets D ↔ D.power f ∧ f.Meets D := by
  constructor
  · intro h
    cases h with
    | power _ holds base exponent => exact ⟨holds, base, exponent⟩
  · rintro ⟨holds, parts⟩
    exact .power f holds parts.base parts.exponent

theorem meets_product {t : Term α (Node α)} :
    (Node.product t).Meets D ↔ D.term t ∧ ∀ f ∈ t.realParts, f.Meets D := by
  constructor
  · intro h
    cases h with
    | product _ holds bases exponents => exact ⟨holds, fun f hf => ⟨bases f hf, exponents f hf⟩⟩
  · rintro ⟨holds, parts⟩
    exact .product t holds (fun f hf => (parts f hf).base) fun f hf => (parts f hf).exponent

theorem meets_sum {ts : List (Term α (Node α))} :
    (Node.sum ts).Meets D ↔ D.sum ts ∧ ∀ t ∈ ts, ∀ f ∈ t.realParts, f.Meets D := by
  constructor
  · intro h
    cases h with
    | sum _ holds bases exponents =>
      exact ⟨holds, fun t ht f hf => ⟨bases t ht f hf, exponents t ht f hf⟩⟩
  · rintro ⟨holds, parts⟩
    exact .sum ts holds (fun t ht f hf => (parts t ht f hf).base)
      fun t ht f hf => (parts t ht f hf).exponent

theorem meets_unary {f : Unary} {x : Node α} : (Node.unary f x).Meets D ↔ x.Meets D := by
  constructor
  · intro h
    cases h with
    | unary _ _ argument => exact argument
  · exact .unary f x

theorem meets_binary {f : Binary} {x y : Node α} :
    (Node.binary f x y).Meets D ↔ x.Meets D ∧ y.Meets D := by
  constructor
  · intro h
    cases h with
    | binary _ _ _ left right => exact ⟨left, right⟩
  · rintro ⟨left, right⟩
    exact .binary f x y left right

/-- What meets a demand meets a weaker one. -/
theorem Meets.mono {E : Demand α} (number : ∀ x, D.number x → E.number x)
    (power : ∀ f, D.power f → E.power f) (term : ∀ t, D.term t → E.term t)
    (sum : ∀ ts, D.sum ts → E.sum ts) {n : Node α} (h : n.Meets D) : n.Meets E := by
  induction h with
  | number x holds => exact .number x (number x holds)
  | constant c negative => exact .constant c negative
  | var v negative => exact .var v negative
  | power f holds _ _ base exponent => exact .power f (power f holds) base exponent
  | product t holds _ _ bases exponents => exact .product t (term t holds) bases exponents
  | sum ts holds _ _ bases exponents => exact .sum ts (sum ts holds) bases exponents
  | unary f x _ argument => exact .unary f x argument
  | binary f x y _ _ left right => exact .binary f x y left right

end Node

/-! ### Numbers that compare -/

/-- Every number equals itself, the coefficients of the terms included. -/
def Demand.comparable : Demand α where
  number := Scalar.SelfEqual
  power _ := True
  term t := Scalar.SelfEqual t.numerator ∧ Scalar.SelfEqual t.denominator
  sum ts := ∀ t ∈ ts, Scalar.SelfEqual t.numerator ∧ Scalar.SelfEqual t.denominator

/-- No number in the expression that counts is undefined. -/
def Node.Comparable (n : Node α) : Prop := n.Meets Demand.comparable

/-- No number in the term that counts is undefined. -/
def Term.Comparable (t : Term α (Node α)) : Prop := (Node.product t).Comparable

/-- Where equality is that of the numbers, everything is comparable. -/
theorem Node.comparable [LawfulBEq α] (n : Node α) : n.Comparable := by
  have equal : ∀ x : α, Scalar.SelfEqual x := fun x => beq_self_eq_true x
  have parts : ∀ t : Term α (Node α), (∀ f ∈ t.factors, (Node.power f).Comparable) →
      (∀ g ∈ t.divisors, (Node.power g).Comparable) → ∀ f ∈ t.realParts, f.Meets Demand.comparable := by
    intro t above below
    rw [Term.forall_realParts]
    exact ⟨fun f hf => (meets_power.1 (above f (List.mem_filter.1 hf).1)).2,
      fun g hg => (meets_power.1 (below g (List.mem_filter.1 hg).1)).2⟩
  induction n using Node.induction with
  | number x => exact .number x (equal x)
  | constant c negative => exact .constant c negative
  | var v negative => exact .var v negative
  | power f base exponent => exact .power f trivial base exponent
  | product t above below =>
    exact meets_product.2 ⟨⟨equal _, equal _⟩, parts t above below⟩
  | sum ts terms =>
    exact meets_sum.2 ⟨fun _ _ => ⟨equal _, equal _⟩, fun t ht => (meets_product.1 (terms t ht)).2⟩
  | unary f x argument => exact .unary f x argument
  | binary f x y left right => exact .binary f x y left right

end SymbolicAlgebra
