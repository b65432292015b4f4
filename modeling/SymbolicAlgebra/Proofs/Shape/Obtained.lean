/-
  Expressions that can be obtained
  ================================
  An expression is *obtained* by building it from obtained expressions, by reading a
  text, by taking a part of an obtained expression and by any operation on obtained
  ones (`Node.Obtained`). The tree of a node can be anything; the expressions a program
  ever sees are the obtained ones.

  What `Term.normal` sees to for each term and `Node.flattened` for each sum of obtained
  nodes holds everywhere inside an obtained expression
  (**`Node.Obtained.throughout`**): of each operation it is known that what it builds it
  builds by these two (`Uniform`), and everything else is a part.
-/
import SymbolicAlgebra.Proofs.CarryOver.Evaluation
import SymbolicAlgebra.Proofs.CarryOver.Parsing

namespace SymbolicAlgebra

namespace Node

/-! ### What holds of every term and every sum -/

section Parts

variable {α : Type} {T : Term α (Node α) → Prop} {S : List (Term α (Node α)) → Prop}

/-- Every term in the expression has the first property and the terms of every sum have the second,
whether a factor counts or is certainly one. -/
inductive Throughout (T : Term α (Node α) → Prop) (S : List (Term α (Node α)) → Prop) :
    Node α → Prop
  | number (x : α) : Throughout T S (.number x)
  | constant (c : Constant) (negative : Bool) : Throughout T S (.constant c negative)
  | var (v : Variable) (negative : Bool) : Throughout T S (.var v negative)
  | power (f : Factor (Node α)) (base : Throughout T S f.base)
      (exponent : Throughout T S f.exponent) : Throughout T S (.power f)
  | product (t : Term α (Node α)) (holds : T t) (factors : ∀ f ∈ t.factors, Throughout T S (.power f))
      (divisors : ∀ g ∈ t.divisors, Throughout T S (.power g)) : Throughout T S (.product t)
  | sum (ts : List (Term α (Node α))) (holds : S ts)
      (terms : ∀ t ∈ ts, Throughout T S (.product t)) : Throughout T S (.sum ts)
  | unary (f : Unary) (x : Node α) (argument : Throughout T S x) : Throughout T S (.unary f x)
  | binary (f : Binary) (x y : Node α) (left : Throughout T S x) (right : Throughout T S y) :
      Throughout T S (.binary f x y)

theorem throughout_power {f : Factor (Node α)} : (Node.power f).Throughout T S ↔
    f.base.Throughout T S ∧ f.exponent.Throughout T S := by
  constructor
  · intro h
    cases h with
    | power _ base exponent => exact ⟨base, exponent⟩
  · rintro ⟨base, exponent⟩
    exact .power f base exponent

theorem throughout_product {t : Term α (Node α)} : (Node.product t).Throughout T S ↔
    T t ∧ (∀ f ∈ t.factors, (Node.power f).Throughout T S) ∧
      ∀ g ∈ t.divisors, (Node.power g).Throughout T S := by
  constructor
  · intro h
    cases h with
    | product _ holds factors divisors => exact ⟨holds, factors, divisors⟩
  · rintro ⟨holds, factors, divisors⟩
    exact .product t holds factors divisors

theorem throughout_sum {ts : List (Term α (Node α))} : (Node.sum ts).Throughout T S ↔
    S ts ∧ ∀ t ∈ ts, (Node.product t).Throughout T S := by
  constructor
  · intro h
    cases h with
    | sum _ holds terms => exact ⟨holds, terms⟩
  · rintro ⟨holds, terms⟩
    exact .sum ts holds terms

theorem throughout_unary {f : Unary} {x : Node α} :
    (Node.unary f x).Throughout T S ↔ x.Throughout T S := by
  constructor
  · intro h
    cases h with
    | unary _ _ argument => exact argument
  · exact .unary f x

theorem throughout_binary {f : Binary} {x y : Node α} :
    (Node.binary f x y).Throughout T S ↔ x.Throughout T S ∧ y.Throughout T S := by
  constructor
  · intro h
    cases h with
    | binary _ _ _ left right => exact ⟨left, right⟩
  · rintro ⟨left, right⟩
    exact .binary f x y left right

end Parts

variable {α : Type} [Scalar α] {T : Term α (Node α) → Prop} {S : List (Term α (Node α)) → Prop}

theorem Throughout.empty : (Node.power (Factor.empty : Factor (Node α))).Throughout T S :=
  .power _ (.number 1) (.number 0)

/-- What every built term has can be asked of all terms. -/
theorem uniform_throughout
    (terms : ∀ (n d : α) (fs gs : List (Factor (Node α))), T (Term.normal n d fs gs)) :
    Uniform (Throughout T S : Node α → Prop) where
  number := .number
  constant := .constant
  var _ negative := .var _ negative
  power := throughout_power
  product above below := by
    refine .product _ (terms _ _ _ _) (fun f hf => ?_) fun g hg => ?_
    · rcases above f hf with rfl | holds
      · exact .empty
      · exact holds
    · rcases below g hg with rfl | holds
      · exact .empty
      · exact holds
  factors h := by
    obtain ⟨-, above, below⟩ := throughout_product.1 h
    exact ⟨fun f hf => above f (List.mem_filter.1 hf).1, fun g hg => below g (List.mem_filter.1 hg).1⟩
  terms h := (throughout_sum.1 h).2
  unary := throughout_unary
  binary := throughout_binary

/-- What every built sum has can be asked of all sums. -/
theorem throughout_carriesToSums [CarriesOver fun _ => (Throughout T S : Node α → Prop)]
    (sums : ∀ ns : List (Node α), (∀ n ∈ ns, n.Throughout T S) → S (flattened ns)) :
    CarriesToSums fun _ => (Throughout T S : Node α → Prop) where
  sum each holds := .sum _ (sums _ each) holds

/-! ### Obtaining expressions -/

/-- The expression is built from obtained ones, read from a text, a part of an obtained expression
or the result of an operation on obtained ones. -/
inductive Obtained : Node α → Prop
  -- built
  | number (x : α) : Obtained (.number x)
  | constant (c : Constant) (negative : Bool) : Obtained (.constant c negative)
  | var (v : Variable) (negative : Bool) : Obtained (.var v negative)
  | power {base exponent : Node α} : Obtained base → Obtained exponent →
      Obtained (.power ⟨base, exponent⟩)
  | product (n d : α) {above below : List (Node α)} : (∀ m ∈ above, Obtained m) →
      (∀ m ∈ below, Obtained m) → Obtained (.product (Term.ofNodes n d above below))
  | sum {ns : List (Node α)} : (∀ n ∈ ns, Obtained n) → Obtained (.sum (flattened ns))
  | unary (f : Unary) {x : Node α} : Obtained x → Obtained (.unary f x)
  | binary (f : Binary) {x y : Node α} : Obtained x → Obtained y → Obtained (.binary f x y)
  -- read
  | parsed {settings : ParserSettings} {text : String} {n : Node α} :
      settings.parse text = .ok n → Obtained n
  -- a part
  | base {f : Factor (Node α)} : Obtained (.power f) → Obtained f.base
  | exponent {f : Factor (Node α)} : Obtained (.power f) → Obtained f.exponent
  | factor {t : Term α (Node α)} {f : Factor (Node α)} : Obtained (.product t) → f ∈ t.factors →
      Obtained (.power f)
  | divisor {t : Term α (Node α)} {g : Factor (Node α)} : Obtained (.product t) → g ∈ t.divisors →
      Obtained (.power g)
  | term {ts : List (Term α (Node α))} {t : Term α (Node α)} : Obtained (.sum ts) → t ∈ ts →
      Obtained (.product t)
  | argument {f : Unary} {x : Node α} : Obtained (.unary f x) → Obtained x
  | left {f : Binary} {x y : Node α} : Obtained (.binary f x y) → Obtained x
  | right {f : Binary} {x y : Node α} : Obtained (.binary f x y) → Obtained y
  -- the result of an operation
  | wrapped {n : Node α} : Obtained n → Obtained (.product (Term.wrap n))
  | cloned {n : Node α} : Obtained n → Obtained n.clone
  | reduced {n : Node α} : Obtained n → Obtained n.reduce
  | simplified {n m : Node α} : Obtained n → n.simplify = .ok m → Obtained m
  | expanded {n m : Node α} : Obtained n → n.expand = .ok m → Obtained m
  | evaluated {scope : Option (Scope α)} {n m : Node α} : Obtained n → n.evaluate scope = .ok m →
      Obtained m
  | negated {n : Node α} : Obtained n → Obtained n.negate
  | added {m n k : Node α} : Obtained m → Obtained n → m.add n = .ok k → Obtained k
  | subtracted {m n k : Node α} : Obtained m → Obtained n → m.subtract n = .ok k → Obtained k
  | multiplied {m n k : Node α} : Obtained m → Obtained n → m.multiply n = .ok k → Obtained k
  | divided {m n k : Node α} : Obtained m → Obtained n → m.divide n = .ok k → Obtained k
  | raised {m n : Node α} : Obtained m → Obtained n → Obtained (m.raise n)

section Uniform

variable {Q : Node α → Prop} [Uniform Q] [CarriesToSums fun _ => Q]

/-- Evaluation puts in numbers for variables and constants, and else builds as other operations
do. -/
theorem evaluate_uniform (var : ∀ v negative, Q (.var v negative)) {scope : Option (Scope α)}
    {n : Node α} (h : Q n) : Yields Q (n.evaluate scope) := by
  refine carry_evaluate (Q := fun _ => Q) (R := fun _ => Q) (p := .alone) ?_ ?_ ?_ h
  · intro _ c negative _
    unfold evaluatedConstant
    split
    · exact Uniform.number _
    · exact Uniform.constant c negative
  · intro _ v negative _
    unfold evaluatedVariable
    split
    · exact .ok (var v negative)
    · intro m result
      obtain ⟨value, -, rest⟩ := bind_eq_ok.1 result
      cases value with
      | none =>
        cases rest
        exact var v negative
      | some x =>
        cases rest
        exact Uniform.number _
  · exact fun _ value e result => Uniform.exponent.2 (value e result)

/-- A uniform property that every variable has and that carries over to sums holds of every obtained
expression, if the factors of a term have it where the term has it. -/
theorem Obtained.uniform (var : ∀ v negative, Q (.var v negative))
    (sides : ∀ {t : Term α (Node α)}, Q (.product t) →
      (∀ f ∈ t.factors, Q (.power f)) ∧ ∀ g ∈ t.divisors, Q (.power g))
    {n : Node α} (h : n.Obtained) : Q n := by
  induction h with
  | number x => exact Uniform.number x
  | constant c negative => exact Uniform.constant c negative
  | var v negative => exact var v negative
  | power _ _ base exponent => exact Uniform.power.2 ⟨base, exponent⟩
  | product n d _ _ above below =>
    exact Term.carry_ofNodes (Q := fun _ => Q) (p := .alone) (q := .alone) above below n d
  | sum _ each => exact carry_flattened (Q := fun _ => Q) (p := .alone) (q := .alone) each
  | unary f _ argument => exact Uniform.unary.2 argument
  | binary f _ _ left right => exact Uniform.binary.2 ⟨left, right⟩
  | parsed read =>
    exact ParserSettings.carry_parse (Q := fun _ => Q) (fun v _ => var v false)
      (fun _ postfixed _ _ => Postfix.raising_of_uniform postfixed)
      (fun _ _ _ _ _ _ c _ => Uniform.constant c false) _ read
  | base _ holds => exact (Uniform.power.1 holds).1
  | exponent _ holds => exact (Uniform.power.1 holds).2
  | factor _ member holds => exact (sides holds).1 _ member
  | divisor _ member holds => exact (sides holds).2 _ member
  | term _ member holds => exact Uniform.terms holds _ member
  | argument _ holds => exact Uniform.unary.1 holds
  | left _ holds => exact (Uniform.binary.1 holds).1
  | right _ holds => exact (Uniform.binary.1 holds).2
  | wrapped _ holds => exact Term.carry_wrap (Q := fun _ => Q) (p := .alone) (q := .alone) holds
  | cloned _ holds => exact carry_clone (Q := fun _ => Q) (p := .alone) holds
  | reduced _ holds => exact carry_reduce (Q := fun _ => Q) (p := .alone) holds
  | simplified _ result holds =>
    exact carry_simplify (Q := fun _ => Q) (p := .alone) holds _ result
  | expanded _ result holds => exact carry_expand (Q := fun _ => Q) (p := .alone) holds _ result
  | evaluated _ result holds => exact evaluate_uniform var holds _ result
  | negated _ holds => exact carry_negate (Q := fun _ => Q) (p := .alone) (q := .alone) holds
  | added _ _ result left right =>
    exact carry_add (Q := fun _ => Q) (p := .alone) left right _ result
  | subtracted _ _ result left right =>
    exact carry_subtract (Q := fun _ => Q) (p := .alone) left right _ result
  | multiplied _ _ result left right =>
    exact carry_multiply (Q := fun _ => Q) (p := .alone) left right _ result
  | divided _ _ result left right =>
    exact carry_divide (Q := fun _ => Q) (p := .alone) left right _ result
  | raised _ _ base exponent =>
    exact carry_raise (Q := fun _ => Q) (p := .alone) base (Uniform.exponent.2 exponent)

end Uniform

/-- What holds of every term and of every sum when it is built holds throughout an obtained
expression. -/
theorem Obtained.throughout
    (terms : ∀ (n d : α) (fs gs : List (Factor (Node α))), T (Term.normal n d fs gs))
    (sums : ∀ ns : List (Node α), (∀ n ∈ ns, n.Throughout T S) → S (flattened ns))
    {n : Node α} (h : n.Obtained) : n.Throughout T S := by
  have := uniform_throughout (S := S) terms
  have := throughout_carriesToSums sums
  exact h.uniform .var fun holds => (throughout_product.1 holds).2

end Node

end SymbolicAlgebra
