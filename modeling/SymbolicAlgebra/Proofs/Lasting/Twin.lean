/-
  Twins
  =====
  Two expressions are twins when they are the same tree up to factors that are
  certainly one and the order of the terms of sums (`Node.Twin`). Building a tree again
  leaves such factors behind, and without them a term may hold no variable any more and
  so have another degree and another place in its sum; nothing else changes.

  Twins answer every question alike that is asked when a term or a sum is built or
  reduced, and twins whose numbers compare are equal: **`Node.Twin.same`**.
-/
import Mathlib.Data.List.Forall2
import SymbolicAlgebra.Proofs.Algebra.Likeness
import SymbolicAlgebra.Proofs.Algebra.Splice

namespace SymbolicAlgebra

variable {α : Type} [Scalar α]

/-- The same tree up to factors that are certainly one and the order of the terms of sums. -/
inductive Node.Twin : Node α → Node α → Prop
  | number (x : α) : Twin (.number x) (.number x)
  | constant (c : Constant) (negative : Bool) : Twin (.constant c negative) (.constant c negative)
  | var (v : Variable) (negative : Bool) : Twin (.var v negative) (.var v negative)
  | power {f g : Factor (Node α)} (base : Twin f.base g.base)
      (exponent : Twin f.exponent g.exponent) : Twin (.power f) (.power g)
  | product {t u : Term α (Node α)} (numerator : t.numerator = u.numerator)
      (denominator : t.denominator = u.denominator)
      (factors : List.Forall₂ (fun f g => Twin (.power f) (.power g)) t.realFactors u.realFactors)
      (divisors : List.Forall₂ (fun f g => Twin (.power f) (.power g)) t.realDivisors
        u.realDivisors) : Twin (.product t) (.product u)
  | sum {ts us vs : List (Term α (Node α))}
      (terms : List.Forall₂ (fun t u => Twin (.product t) (.product u)) ts vs) (order : vs.Perm us) :
      Twin (.sum ts) (.sum us)
  | unary (f : Unary) {x y : Node α} (argument : Twin x y) : Twin (.unary f x) (.unary f y)
  | binary (f : Binary) {x y z w : Node α} (left : Twin x z) (right : Twin y w) :
      Twin (.binary f x y) (.binary f z w)

/-- Factors of twin bases and exponents. -/
def Factor.Twin (f g : Factor (Node α)) : Prop := (Node.power f).Twin (.power g)

/-- Terms with the same coefficient and twin factors. -/
def Term.Twin (t u : Term α (Node α)) : Prop := (Node.product t).Twin (.product u)

theorem Factor.twin_iff {f g : Factor (Node α)} :
    f.Twin g ↔ f.base.Twin g.base ∧ f.exponent.Twin g.exponent := by
  constructor
  · intro h
    cases h with
    | power base exponent => exact ⟨base, exponent⟩
  · rintro ⟨base, exponent⟩
    exact .power base exponent

theorem Term.twin_iff {t u : Term α (Node α)} :
    t.Twin u ↔ (t.numerator = u.numerator ∧ t.denominator = u.denominator) ∧
      List.Forall₂ Factor.Twin t.realFactors u.realFactors ∧
        List.Forall₂ Factor.Twin t.realDivisors u.realDivisors := by
  constructor
  · intro h
    cases h with
    | product numerator denominator factors divisors =>
      exact ⟨⟨numerator, denominator⟩, factors, divisors⟩
  · rintro ⟨⟨numerator, denominator⟩, factors, divisors⟩
    exact .product numerator denominator factors divisors

namespace Node

/-- A sum of one term answers as the term. -/
theorem isOne_single (t : Term α (Node α)) : (Node.sum [t]).isOne = t.isOne := by
  obtain ⟨n, d, fs, gs⟩ := t
  rw [Term.isOne, isOne, isOne]

theorem isZero_single (t : Term α (Node α)) : (Node.sum [t]).isZero = t.isZero := by
  obtain ⟨n, d, fs, gs⟩ := t
  rw [Term.isZero, isZero, isZero]

theorem isNegative_single (t : Term α (Node α)) :
    (Node.sum [t]).isNegative = (Node.product t).isNegative := by
  obtain ⟨n, d, fs, gs⟩ := t
  rw [isNegative, isNegative]

section Several

variable {ts : List (Term α (Node α))} (several : ts.length ≠ 1)

include several

theorem isOne_several : (Node.sum ts).isOne = false := by
  rcases ts with _ | ⟨t, _ | ⟨u, ts⟩⟩ <;> first | rfl | exact absurd rfl several

theorem isZero_several : (Node.sum ts).isZero = false := by
  rcases ts with _ | ⟨t, _ | ⟨u, ts⟩⟩ <;> first | rfl | exact absurd rfl several

theorem isNegative_several : (Node.sum ts).isNegative = false := by
  rcases ts with _ | ⟨t, _ | ⟨u, ts⟩⟩ <;> first | rfl | exact absurd rfl several

omit [Scalar α] in
theorem isSpliced_several : (Node.sum ts).isSpliced = false := by
  rcases ts with _ | ⟨t, _ | ⟨u, ts⟩⟩ <;> first | rfl | exact absurd rfl several

end Several

/-! ### What twins answer -/

namespace Twin

variable {a b : Node α}

protected theorem refl (n : Node α) : n.Twin n := by
  have term : ∀ t : Term α (Node α),
      (∀ f ∈ t.realParts, f.base.Twin f.base ∧ f.exponent.Twin f.exponent) → t.Twin t := by
    intro t parts
    obtain ⟨above, below⟩ := Term.forall_realParts.1 parts
    exact Term.twin_iff.2 ⟨⟨rfl, rfl⟩,
      List.forall₂_same.2 fun f hf => Factor.twin_iff.2 (above f hf),
      List.forall₂_same.2 fun g hg => Factor.twin_iff.2 (below g hg)⟩
  induction n using induction_parts with
  | number x => exact .number x
  | constant c negative => exact .constant c negative
  | var v negative => exact .var v negative
  | power f base exponent => exact .power base exponent
  | product t parts => exact term t parts
  | sum ts parts => exact .sum (List.forall₂_same.2 fun t ht => term t (parts t ht)) (.refl ts)
  | unary f x argument => exact .unary f argument
  | binary f x y left right => exact .binary f left right

theorem value?_eq (h : a.Twin b) : a.value? = b.value? := by
  cases h <;> rfl

theorem isUnit_eq (h : a.Twin b) : a.isUnit = b.isUnit := by
  cases h <;> rfl

/-- Twin sums have as many terms, and if this is one, the terms are twins. -/
theorem sum_cases {ts us : List (Term α (Node α))} (h : (Node.sum ts).Twin (.sum us)) :
    (ts.length ≠ 1 ∧ us.length ≠ 1) ∨ ∃ t u, ts = [t] ∧ us = [u] ∧ t.Twin u := by
  cases h with
  | @sum _ _ vs terms order =>
    have counts : ts.length = us.length := terms.length_eq.trans order.length_eq
    by_cases single : ts.length = 1
    · right
      obtain ⟨t, rfl⟩ := List.length_eq_one_iff.1 single
      obtain ⟨u, vs, twins, rest, rfl⟩ := List.forall₂_cons_left_iff.1 terms
      obtain rfl := List.forall₂_nil_left_iff.1 rest
      exact ⟨t, u, rfl, (List.singleton_perm.1 order).symm, twins⟩
    · exact .inl ⟨single, counts ▸ single⟩

theorem isSpliced_eq (h : a.Twin b) : a.isSpliced = b.isSpliced := by
  cases h with
  | @sum ts us vs terms order =>
    rcases sum_cases (.sum terms order) with ⟨several, others⟩ | ⟨t, u, rfl, rfl, -⟩
    · rw [isSpliced_several several, isSpliced_several others]
    · rfl
  | _ => rfl

/-- Whether an expression is certainly one or zero or written with a minus sign, asked of two. -/
structure Agree (a b : Node α) : Prop where
  one : a.isOne = b.isOne
  zero : a.isZero = b.isZero
  negative : a.isNegative = b.isNegative

theorem Agree.power {f g : Factor (Node α)} (base : Agree f.base g.base)
    (exponent : Agree f.exponent g.exponent) (value : f.exponent.value? = g.exponent.value?) :
    Agree (.power f) (.power g) where
  one := by
    rw [isOne, isOne, base.one, exponent.zero]
  zero := by
    rw [isZero, isZero, base.zero, exponent.zero]
  negative := by
    rw [isNegative, isNegative, base.negative, value]

theorem Agree.product {t u : Term α (Node α)} (coefficient : t.numerator = u.numerator ∧
      t.denominator = u.denominator)
    (factors : List.Forall₂ (fun f g => Agree (.power f) (.power g)) t.realFactors u.realFactors)
    (divisors : List.Forall₂ (fun f g => Agree (.power f) (.power g)) t.realDivisors
      u.realDivisors) : Agree (.product t) (.product u) := by
  have empty : ∀ {fs gs : List (Factor (Node α))},
      List.Forall₂ (fun f g => Agree (.power f) (.power g)) fs gs → fs.isEmpty = gs.isEmpty := by
    intro fs gs h
    cases h <;> rfl
  have zero : ∀ {fs gs : List (Factor (Node α))},
      List.Forall₂ (fun f g => Agree (.power f) (.power g)) fs gs →
        fs.any Factor.isZero = gs.any Factor.isZero := by
    intro fs gs h
    induction h with
    | nil => rfl
    | cons first _ ih =>
      rw [List.any_cons, List.any_cons, ih]
      exact congrArg (· || _) first.zero
  have odd : ∀ {fs gs : List (Factor (Node α))},
      List.Forall₂ (fun f g => Agree (.power f) (.power g)) fs gs →
        fs.foldr (fun f odd => (Node.power f).isNegative != odd) false =
          gs.foldr (fun f odd => (Node.power f).isNegative != odd) false := by
    intro fs gs h
    induction h with
    | nil => rfl
    | cons first _ ih => rw [List.foldr_cons, List.foldr_cons, ih, first.negative]
  constructor
  · show t.isOne = u.isOne
    rw [Term.isOne_eq, Term.isOne_eq, coefficient.1, coefficient.2, empty factors, empty divisors]
  · show t.isZero = u.isZero
    rw [Term.isZero_eq, Term.isZero_eq, coefficient.1, coefficient.2, zero factors]
  · rw [Term.isNegative_eq, Term.isNegative_eq, coefficient.1, odd factors, odd divisors]

/-- Twins answer alike. -/
theorem agree (h : a.Twin b) : Agree a b := by
  have listed : ∀ {fs gs : List (Factor (Node α))}, List.Forall₂ Factor.Twin fs gs →
      (∀ f ∈ fs, (∀ {b}, f.base.Twin b → Agree f.base b) ∧ ∀ {b}, f.exponent.Twin b →
        Agree f.exponent b) → List.Forall₂ (fun f g => Agree (.power f) (.power g)) fs gs := by
    intro fs gs twins parts
    induction twins with
    | nil => exact .nil
    | cons first _ ih =>
      obtain ⟨head, tail⟩ := List.forall_mem_cons.1 parts
      obtain ⟨base, exponent⟩ := Factor.twin_iff.1 first
      exact .cons (.power (head.1 base) (head.2 exponent) exponent.value?_eq) (ih tail)
  have term : ∀ {t u : Term α (Node α)}, t.Twin u →
      (∀ f ∈ t.realParts, (∀ {b}, f.base.Twin b → Agree f.base b) ∧ ∀ {b}, f.exponent.Twin b →
        Agree f.exponent b) → Agree (.product t) (.product u) := by
    intro t u twins parts
    obtain ⟨above, below⟩ := Term.forall_realParts.1 parts
    obtain ⟨coefficient, factors, divisors⟩ := Term.twin_iff.1 twins
    exact .product coefficient (listed factors above) (listed divisors below)
  induction a using induction_parts generalizing b with
  | number x =>
    cases h
    exact ⟨rfl, rfl, rfl⟩
  | constant c negative =>
    cases h
    exact ⟨rfl, rfl, rfl⟩
  | var v negative =>
    cases h
    exact ⟨rfl, rfl, rfl⟩
  | power f base exponent =>
    cases h with
    | power bases exponents => exact .power (base bases) (exponent exponents) exponents.value?_eq
  | product t parts =>
    cases h with
    | product numerator denominator factors divisors =>
      exact term (.product numerator denominator factors divisors) parts
  | sum ts parts =>
    cases h with
    | sum terms order =>
      rcases sum_cases (.sum terms order) with ⟨several, others⟩ | ⟨t, u, rfl, rfl, twins⟩
      · exact ⟨by rw [isOne_several several, isOne_several others],
          by rw [isZero_several several, isZero_several others],
          by rw [isNegative_several several, isNegative_several others]⟩
      · have answers := term twins (parts t List.mem_cons_self)
        exact ⟨by rw [isOne_single, isOne_single]; exact answers.one,
          by rw [isZero_single, isZero_single]; exact answers.zero,
          by rw [isNegative_single, isNegative_single]; exact answers.negative⟩
  | unary f x argument =>
    cases h
    exact ⟨rfl, rfl, rfl⟩
  | binary f x y left right =>
    cases h
    exact ⟨rfl, rfl, rfl⟩

end Twin

end Node

/-! ### Demands on twins -/

/-- What stands in the second of two related lists is related to something in the first. -/
theorem exists_of_forall₂ {β γ : Type} {related : β → γ → Prop} {xs : List β} {ys : List γ}
    (h : List.Forall₂ related xs ys) {y : γ} (member : y ∈ ys) : ∃ x ∈ xs, related x y := by
  induction h with
  | nil => cases member
  | cons first _ ih =>
    rcases List.mem_cons.1 member with rfl | member
    · exact ⟨_, List.mem_cons_self, first⟩
    · obtain ⟨x, found, fits⟩ := ih member
      exact ⟨x, List.mem_cons_of_mem _ found, fits⟩

/-- What is asked holds of twins together. -/
structure Demand.Invariant (D : Demand α) : Prop where
  power : ∀ {f g : Factor (Node α)}, f.Twin g → D.power f → D.power g
  term : ∀ {t u : Term α (Node α)}, t.Twin u → D.term t → D.term u
  sum : ∀ {ts us : List (Term α (Node α))}, (Node.sum ts).Twin (.sum us) → D.sum ts → D.sum us

namespace Node.Twin

variable {a b : Node α} {D : Demand α}

theorem meets (invariant : D.Invariant) (h : a.Twin b) (holds : a.Meets D) : b.Meets D := by
  have listed : ∀ {fs gs : List (Factor (Node α))}, List.Forall₂ Factor.Twin fs gs →
      (∀ f ∈ fs, (∀ {b}, f.base.Twin b → f.base.Meets D → b.Meets D) ∧
        ∀ {b}, f.exponent.Twin b → f.exponent.Meets D → b.Meets D) →
          (∀ f ∈ fs, f.Meets D) → ∀ g ∈ gs, g.Meets D := by
    intro fs gs twins parts each
    induction twins with
    | nil => exact List.forall_mem_nil _
    | cons first _ ih =>
      obtain ⟨head, tail⟩ := List.forall_mem_cons.1 parts
      obtain ⟨single, others⟩ := List.forall_mem_cons.1 each
      obtain ⟨base, exponent⟩ := Factor.twin_iff.1 first
      exact List.forall_mem_cons.2
        ⟨⟨head.1 base single.base, head.2 exponent single.exponent⟩, ih tail others⟩
  have term : ∀ {t u : Term α (Node α)}, t.Twin u →
      (∀ f ∈ t.realParts, (∀ {b}, f.base.Twin b → f.base.Meets D → b.Meets D) ∧
        ∀ {b}, f.exponent.Twin b → f.exponent.Meets D → b.Meets D) →
          (∀ f ∈ t.realParts, f.Meets D) → ∀ g ∈ u.realParts, g.Meets D := by
    intro t u twins parts each
    obtain ⟨above, below⟩ := Term.forall_realParts.1 parts
    obtain ⟨upper, lower⟩ := Term.forall_realParts.1 each
    obtain ⟨-, factors, divisors⟩ := Term.twin_iff.1 twins
    exact Term.forall_realParts.2 ⟨listed factors above upper, listed divisors below lower⟩
  induction a using induction_parts generalizing b with
  | number x =>
    cases h
    exact holds
  | constant c negative =>
    cases h
    exact holds
  | var v negative =>
    cases h
    exact holds
  | power f base exponent =>
    cases h with
    | power bases exponents =>
      obtain ⟨asked, parts⟩ := meets_power.1 holds
      exact meets_power.2 ⟨invariant.power (Factor.twin_iff.2 ⟨bases, exponents⟩) asked,
        base bases parts.base, exponent exponents parts.exponent⟩
  | product t parts =>
    cases h with
    | @product _ u numerator denominator factors divisors =>
      have twins : t.Twin u := .product numerator denominator factors divisors
      obtain ⟨asked, each⟩ := meets_product.1 holds
      exact meets_product.2 ⟨invariant.term twins asked, term twins parts each⟩
  | sum ts parts =>
    cases h with
    | @sum _ us vs terms order =>
      obtain ⟨asked, each⟩ := meets_sum.1 holds
      refine meets_sum.2 ⟨invariant.sum (.sum terms order) asked, fun u hu => ?_⟩
      obtain ⟨t, ht, twins⟩ := exists_of_forall₂ terms (order.mem_iff.2 hu)
      exact term twins (parts t ht) (each t ht)
  | unary f x argument =>
    cases h with
    | unary _ arguments => exact meets_unary.2 (argument arguments (meets_unary.1 holds))
  | binary f x y left right =>
    cases h with
    | binary _ lefts rights =>
      obtain ⟨first, second⟩ := meets_binary.1 holds
      exact meets_binary.2 ⟨left lefts first, right rights second⟩

/-! ### Equality of twins -/

theorem comparable_invariant : (Demand.comparable : Demand α).Invariant where
  power _ _ := trivial
  term twins coefficient := by
    obtain ⟨⟨numerator, denominator⟩, -⟩ := Term.twin_iff.1 twins
    exact ⟨numerator ▸ coefficient.1, denominator ▸ coefficient.2⟩
  sum twins coefficients u hu := by
    cases twins with
    | sum terms order =>
      obtain ⟨t, ht, twin⟩ := exists_of_forall₂ terms (order.mem_iff.2 hu)
      obtain ⟨⟨numerator, denominator⟩, -⟩ := Term.twin_iff.1 twin
      exact ⟨numerator ▸ (coefficients t ht).1, denominator ▸ (coefficients t ht).2⟩

theorem comparable (h : a.Twin b) (holds : a.Comparable) : b.Comparable :=
  h.meets comparable_invariant holds

theorem sameSigned (h : a.Twin b) (equal : a.same b = true) : a.sameSigned b = true := by
  rw [Node.sameSigned, equal, h.agree.negative, beq_self_eq_true, Bool.and_self]

/-- Twins of the node are equal to it when its numbers compare. -/
def Recognized (a : Node α) : Prop := ∀ {b}, a.Twin b → a.Comparable → a.same b = true

section Recognized

variable [PartialEquivBEq α]

theorem factors_matched {fs gs : List (Factor (Node α))} (twins : List.Forall₂ Factor.Twin fs gs)
    (parts : ∀ f ∈ fs, Recognized f.base ∧ Recognized f.exponent)
    (holds : ∀ f ∈ fs, f.Meets Demand.comparable) : Tally.matched Factor.same fs gs = true := by
  have each : ∀ g ∈ gs, g.base.Comparable ∧ g.exponent.Comparable := by
    intro g hg
    obtain ⟨f, hf, twin⟩ := exists_of_forall₂ twins hg
    obtain ⟨base, exponent⟩ := Factor.twin_iff.1 twin
    exact ⟨base.comparable (holds f hf).base, exponent.comparable (holds f hf).exponent⟩
  refine Tally.matched_of_forall₂ (factorSame_equivalence same_equivalence)
    (fun f hf => ⟨(holds f hf).base, (holds f hf).exponent⟩) each ?_ (.refl gs)
  clear each
  induction twins with
  | nil => exact .nil
  | cons first _ ih =>
    obtain ⟨head, tail⟩ := List.forall_mem_cons.1 parts
    obtain ⟨single, others⟩ := List.forall_mem_cons.1 holds
    obtain ⟨base, exponent⟩ := Factor.twin_iff.1 first
    refine .cons ?_ (ih tail others)
    rw [Factor.same_eq, base.sameSigned (head.1 base single.base),
      exponent.sameSigned (head.2 exponent single.exponent), Bool.and_self]

theorem term_same {t u : Term α (Node α)} (twins : t.Twin u)
    (parts : ∀ f ∈ t.realParts, Recognized f.base ∧ Recognized f.exponent)
    (coefficient : Scalar.SelfEqual t.numerator ∧ Scalar.SelfEqual t.denominator)
    (holds : ∀ f ∈ t.realParts, f.Meets Demand.comparable) : t.same u = true := by
  obtain ⟨above, below⟩ := Term.forall_realParts.1 parts
  obtain ⟨upper, lower⟩ := Term.forall_realParts.1 holds
  obtain ⟨⟨numerator, denominator⟩, factors, divisors⟩ := Term.twin_iff.1 twins
  rw [Term.same, Node.same, sameFactors_eq, sameFactors_eq, ← numerator, ← denominator]
  rw [show (t.numerator == t.numerator) = true from coefficient.1,
    show (t.denominator == t.denominator) = true from coefficient.2]
  exact Bool.and_eq_true_iff.2
    ⟨factors_matched factors above upper, factors_matched divisors below lower⟩

end Recognized

/-- Twins whose numbers compare are equal. -/
theorem same [PartialEquivBEq α] (h : a.Twin b) (holds : a.Comparable) : a.same b = true := by
  induction a using induction_parts generalizing b with
  | number x =>
    cases h
    exact same_number.2 ⟨x, rfl, meets_number.1 holds⟩
  | constant c negative =>
    cases h
    exact same_constant.2 rfl
  | var v negative =>
    cases h
    exact same_var.2 ⟨negative, rfl⟩
  | power f base exponent =>
    cases h with
    | @power _ g bases exponents =>
      have parts := (meets_power.1 holds).2
      refine same_power.2 ⟨g, rfl, ?_⟩
      rw [Factor.same_eq, bases.sameSigned (base bases parts.base),
        exponents.sameSigned (exponent exponents parts.exponent), Bool.and_self]
  | product t parts =>
    cases h with
    | @product _ u numerator denominator factors divisors =>
      obtain ⟨coefficient, each⟩ := meets_product.1 holds
      exact same_product.2 ⟨u, rfl, term_same (.product numerator denominator factors divisors)
        parts coefficient each⟩
  | sum ts parts =>
    cases h with
    | @sum _ us vs terms order =>
      obtain ⟨coefficients, inside⟩ := meets_sum.1 holds
      have others : ∀ u ∈ vs, u.Comparable := by
        intro u hu
        obtain ⟨t, ht, twins⟩ := exists_of_forall₂ terms hu
        exact twins.comparable (meets_product.2 ⟨coefficients t ht, inside t ht⟩)
      refine same_sum.2 ⟨us, rfl, Tally.matched_of_forall₂
        (P := fun t => t.Comparable) ?_ (fun t ht => meets_product.2 ⟨coefficients t ht, inside t ht⟩)
        others ?_ order⟩
      · exact (termSame_equivalence same_equivalence).mono fun t comparable => by
          obtain ⟨coefficient, each⟩ := meets_product.1 comparable
          exact ⟨coefficient, fun f hf => ⟨(each f hf).base, (each f hf).exponent⟩⟩
      · clear others order holds
        induction terms with
        | nil => exact .nil
        | cons first _ ih =>
          obtain ⟨head, tail⟩ := List.forall_mem_cons.1 parts
          obtain ⟨single, rest⟩ := List.forall_mem_cons.1 coefficients
          obtain ⟨own, later⟩ := List.forall_mem_cons.1 inside
          exact .cons (term_same first head single own) (ih tail rest later)
  | unary f x argument =>
    cases h with
    | @unary _ _ y arguments =>
      exact same_unary.2 ⟨y, rfl, arguments.sameSigned (argument arguments (meets_unary.1 holds))⟩
  | binary f x y left right =>
    cases h with
    | @binary _ _ _ z w lefts rights =>
      obtain ⟨first, second⟩ := meets_binary.1 holds
      exact same_binary.2 ⟨z, w, rfl, lefts.sameSigned (left lefts first),
        rights.sameSigned (right rights second)⟩

end Node.Twin

end SymbolicAlgebra
