/-
  Equality of expressions is an equivalence
  =========================================
  Equality of terms and sums matches factors and terms, so it is an equivalence when
  the parts are compared by one. The height of an expression is more than that of
  its parts: **`Node.same_equivalence`** follows by induction on a bound of it, for all
  expressions whose numbers equal themselves.
-/
import SymbolicAlgebra.Node.Equality
import SymbolicAlgebra.Node.Measure
import SymbolicAlgebra.Proofs.Algebra.Demand
import SymbolicAlgebra.Proofs.Algebra.Matching

namespace SymbolicAlgebra

open Scalar (SelfEqual)
open Tally (EquivalenceOn)

variable {α : Type} [Scalar α]

/-- Whether two terms are the same up to the order of their factors. -/
def Term.same (t u : Term α (Node α)) : Bool := (Node.product t).same (.product u)

namespace Node

theorem sameFactors_eq (fs gs : List (Factor (Node α))) :
    sameFactors fs gs = Tally.matched Factor.same (realFactors fs) gs := by
  induction fs generalizing gs with
  | nil => rfl
  | cons f fs ih =>
    have test : Factor.same f = fun g => f.base.same g.base && f.base.isNegative == g.base.isNegative
        && (f.exponent.same g.exponent && f.exponent.isNegative == g.exponent.isNegative) := by
      funext g
      exact Factor.same_eq f g
    obtain ⟨base, exponent⟩ := f
    rw [sameFactors]
    by_cases one : Factor.isOne ⟨base, exponent⟩ = true
    · rw [realFactors_of_one one, ← ih]
      exact if_pos one
    · rw [realFactors_of_real one, Tally.matched, test]
      simp only [ih]
      have differ : ¬ (exponent.isZero || base.isOne) = true := one
      rw [if_neg differ]
      split <;> rename_i found <;> rw [found]

end Node

theorem Term.isLike_eq (t u : Term α (Node α)) : t.isLike u =
    (Tally.matched Factor.same t.realFactors u.realFactors &&
      Tally.matched Factor.same t.realDivisors u.realDivisors) := by
  rw [isLike, Node.sameFactors_eq, Node.sameFactors_eq]
  rfl

namespace Node

theorem sameTerms_eq (ts us : List (Term α (Node α))) :
    sameTerms ts us = Tally.matched Term.same ts us := by
  induction ts generalizing us with
  | nil => rfl
  | cons t ts ih =>
    have test : Term.same t = fun u => t.numerator == u.numerator && t.denominator == u.denominator
        && sameFactors t.factors u.realFactors && sameFactors t.divisors u.realDivisors := by
      funext u
      rw [Term.same, Node.same]
    obtain ⟨n, d, fs, gs⟩ := t
    rw [sameTerms, Tally.matched, test]
    simp only [ih]
    split <;> rename_i found <;> rw [found]

/-! ### Heights -/

omit [Scalar α] in
theorem height_le_factorsHeight {f : Factor (Node α)} {fs : List (Factor (Node α))}
    (member : f ∈ fs) :
    f.base.height ≤ factorsHeight fs ∧ f.exponent.height ≤ factorsHeight fs := by
  induction fs with
  | nil => cases member
  | cons g fs ih =>
    rw [factorsHeight]
    rcases List.mem_cons.1 member with rfl | member
    · omega
    · have := ih member
      omega

omit [Scalar α] in
theorem height_le_termsHeight {t : Term α (Node α)} {ts : List (Term α (Node α))}
    (member : t ∈ ts) :
    1 + max (factorsHeight t.factors) (factorsHeight t.divisors) ≤ termsHeight ts := by
  induction ts with
  | nil => cases member
  | cons u ts ih =>
    rw [termsHeight]
    rcases List.mem_cons.1 member with rfl | member
    · omega
    · have := ih member
      omega

/-- The parts of a factor are less high than the bound. -/
def FactorBelow (k : Nat) (f : Factor (Node α)) : Prop :=
  f.base.height < k ∧ f.exponent.height < k

/-- The parts of the factors of a term are less high than the bound. -/
def TermBelow (k : Nat) (t : Term α (Node α)) : Prop :=
  (∀ f ∈ t.realFactors, FactorBelow k f) ∧ ∀ f ∈ t.realDivisors, FactorBelow k f

theorem termBelow_of_height {t : Term α (Node α)} {k : Nat}
    (low : factorsHeight t.factors < k ∧ factorsHeight t.divisors < k) : TermBelow k t := by
  constructor
  · intro f hf
    have bound := height_le_factorsHeight (List.mem_filter.1 hf).1
    exact ⟨by omega, by omega⟩
  · intro f hf
    have bound := height_le_factorsHeight (List.mem_filter.1 hf).1
    exact ⟨by omega, by omega⟩

/-- The parts of an expression of bounded height are below the bound. -/
theorem termBelow_of_mem {ts : List (Term α (Node α))} {t : Term α (Node α)} {k : Nat}
    (low : (Node.sum ts).height < k + 1) (member : t ∈ ts) : TermBelow k t := by
  rw [height] at low
  have bound := height_le_termsHeight member
  exact termBelow_of_height ⟨by omega, by omega⟩

/-! ### The equivalence -/

section Parts

variable {P : Node α → Prop} (h : EquivalenceOn P same)

include h

theorem sameSigned_equivalence : EquivalenceOn P sameSigned :=
  h.and ((EquivalenceOn.beq.pull isNegative).mono fun _ _ => trivial)

theorem factorSame_equivalence :
    EquivalenceOn (fun f : Factor (Node α) => P f.base ∧ P f.exponent) Factor.same := by
  have bases := ((sameSigned_equivalence h).pull Factor.base).mono
    (fun (f : Factor (Node α)) (parts : P f.base ∧ P f.exponent) => parts.1)
  have exponents := ((sameSigned_equivalence h).pull Factor.exponent).mono
    (fun (f : Factor (Node α)) (parts : P f.base ∧ P f.exponent) => parts.2)
  have tests : (Factor.same (α := α)) =
      fun f g => f.base.sameSigned g.base && f.exponent.sameSigned g.exponent := by
    funext f g
    exact Factor.same_eq f g
  rw [tests]
  exact bases.and exponents

/-- Matching the factors on both sides of the bar is an equivalence of terms. -/
theorem isLike_equivalence_on :
    EquivalenceOn (fun t : Term α (Node α) => ∀ f ∈ t.realParts, P f.base ∧ P f.exponent)
      Term.isLike := by
  have factors := (factorSame_equivalence h).matched
  have above := (factors.pull Term.realFactors).mono
    (fun (t : Term α (Node α)) (parts : ∀ f ∈ t.realParts, P f.base ∧ P f.exponent) =>
      (Term.forall_realParts.1 parts).1)
  have below := (factors.pull Term.realDivisors).mono
    (fun (t : Term α (Node α)) (parts : ∀ f ∈ t.realParts, P f.base ∧ P f.exponent) =>
      (Term.forall_realParts.1 parts).2)
  have tests : Term.isLike (α := α) = fun t u =>
      Tally.matched Factor.same t.realFactors u.realFactors &&
        Tally.matched Factor.same t.realDivisors u.realDivisors := by
    funext t u
    exact Term.isLike_eq t u
  rw [tests]
  exact above.and below

theorem termSame_equivalence [PartialEquivBEq α] :
    EquivalenceOn (fun t : Term α (Node α) => (SelfEqual t.numerator ∧ SelfEqual t.denominator) ∧
      ∀ f ∈ t.realParts, P f.base ∧ P f.exponent) Term.same := by
  have numerators := (EquivalenceOn.beq_on.pull Term.numerator).mono
    (fun (t : Term α (Node α)) (parts : (SelfEqual t.numerator ∧ SelfEqual t.denominator) ∧
      ∀ f ∈ t.realParts, P f.base ∧ P f.exponent) => parts.1.1)
  have denominators := (EquivalenceOn.beq_on.pull Term.denominator).mono
    (fun (t : Term α (Node α)) (parts : (SelfEqual t.numerator ∧ SelfEqual t.denominator) ∧
      ∀ f ∈ t.realParts, P f.base ∧ P f.exponent) => parts.1.2)
  have tests : (Term.same (α := α)) = fun t u =>
      t.numerator == u.numerator && t.denominator == u.denominator && t.isLike u := by
    funext t u
    rw [Term.same, same, Bool.and_assoc]
    rfl
  rw [tests]
  exact (numerators.and denominators).and ((isLike_equivalence_on h).mono fun _ parts => parts.2)

end Parts

/-! ### What an expression is equal to -/

section Shapes

variable {y : Node α}

theorem same_number {a : α} :
    (Node.number a).same y = true ↔ ∃ b, y = .number b ∧ (a == b) = true := by
  cases y with
  | number b => simp [same]
  | _ => simp [same]

theorem same_constant {c : Constant} {negative : Bool} :
    (Node.constant c negative : Node α).same y = true ↔ y = .constant c negative := by
  cases y with
  | constant d opposite =>
    rw [same, Bool.and_eq_true, beq_iff_eq, beq_iff_eq, Node.constant.injEq, eq_comm,
      eq_comm (a := negative)]
  | _ => simp [same]

theorem same_var {v : Variable} {negative : Bool} :
    (Node.var v negative : Node α).same y = true ↔ ∃ opposite, y = .var v opposite := by
  cases y with
  | var w opposite =>
    rw [same, beq_iff_eq]
    constructor
    · rintro rfl
      exact ⟨opposite, rfl⟩
    · rintro ⟨sign, equal⟩
      cases equal
      rfl
  | _ => simp [same]

theorem same_power {f : Factor (Node α)} :
    (Node.power f).same y = true ↔ ∃ g, y = .power g ∧ f.same g = true := by
  cases y with
  | power g => simp [Factor.same]
  | _ => simp [same]

theorem same_product {t : Term α (Node α)} :
    (Node.product t).same y = true ↔ ∃ u, y = .product u ∧ t.same u = true := by
  cases y with
  | product u => simp [Term.same]
  | _ => simp [same]

theorem same_sum {ts : List (Term α (Node α))} :
    (Node.sum ts).same y = true ↔ ∃ us, y = .sum us ∧ Tally.matched Term.same ts us = true := by
  cases y with
  | sum us => simp [same, sameTerms_eq]
  | _ => simp [same]

theorem same_unary {f : Unary} {a : Node α} :
    (Node.unary f a).same y = true ↔ ∃ b, y = .unary f b ∧ a.sameSigned b = true := by
  cases y with
  | unary g b =>
    rw [same, Bool.and_eq_true, beq_iff_eq]
    constructor
    · rintro ⟨rfl, parts⟩
      exact ⟨b, rfl, parts⟩
    · rintro ⟨c, equal, parts⟩
      cases equal
      exact ⟨rfl, parts⟩
  | _ => simp [same]

theorem same_binary {f : Binary} {a b : Node α} :
    (Node.binary f a b).same y = true ↔
      ∃ c d, y = .binary f c d ∧ a.sameSigned c = true ∧ b.sameSigned d = true := by
  cases y with
  | binary g c d =>
    rw [same, Bool.and_eq_true, Bool.and_eq_true, beq_iff_eq]
    constructor
    · rintro ⟨⟨rfl, first⟩, second⟩
      exact ⟨c, d, rfl, first, second⟩
    · rintro ⟨m, n, equal, first, second⟩
      cases equal
      exact ⟨⟨rfl, first⟩, second⟩
  | _ => simp [same]

end Shapes

/-! ### Expressions of any height -/

/-- Comparable expressions of bounded height. -/
def Within (k : Nat) (n : Node α) : Prop := n.height < k ∧ n.Comparable

section Within

variable {k : Nat}

theorem Within.power {f : Factor (Node α)} (h : (Node.power f).Within (k + 1)) :
    f.base.Within k ∧ f.exponent.Within k := by
  obtain ⟨low, comparable⟩ := h
  have parts := (meets_power.1 comparable).2
  rw [height] at low
  exact ⟨⟨by omega, parts.base⟩, ⟨by omega, parts.exponent⟩⟩

theorem within_of_below {t : Term α (Node α)} (low : TermBelow k t)
    (parts : ∀ f ∈ t.realParts, f.Meets Demand.comparable) :
    ∀ f ∈ t.realParts, f.base.Within k ∧ f.exponent.Within k := by
  intro f hf
  obtain ⟨base, exponent⟩ : FactorBelow k f :=
    (List.mem_append.1 hf).elim (low.1 f) (low.2 f)
  exact ⟨⟨base, (parts f hf).base⟩, ⟨exponent, (parts f hf).exponent⟩⟩

theorem Within.product {t : Term α (Node α)} (h : (Node.product t).Within (k + 1)) :
    (SelfEqual t.numerator ∧ SelfEqual t.denominator) ∧
      ∀ f ∈ t.realParts, f.base.Within k ∧ f.exponent.Within k := by
  obtain ⟨low, comparable⟩ := h
  obtain ⟨coefficient, parts⟩ := meets_product.1 comparable
  rw [height] at low
  exact ⟨coefficient, within_of_below (termBelow_of_height ⟨by omega, by omega⟩) parts⟩

theorem Within.sum {ts : List (Term α (Node α))} (h : (Node.sum ts).Within (k + 1)) :
    ∀ t ∈ ts, (SelfEqual t.numerator ∧ SelfEqual t.denominator) ∧
      ∀ f ∈ t.realParts, f.base.Within k ∧ f.exponent.Within k := by
  obtain ⟨low, comparable⟩ := h
  obtain ⟨coefficients, parts⟩ := meets_sum.1 comparable
  intro t ht
  exact ⟨coefficients t ht, within_of_below (termBelow_of_mem low ht) (parts t ht)⟩

theorem Within.unary {f : Unary} {x : Node α} (h : (Node.unary f x).Within (k + 1)) :
    x.Within k := by
  obtain ⟨low, comparable⟩ := h
  rw [height] at low
  exact ⟨by omega, meets_unary.1 comparable⟩

theorem Within.binary {f : Binary} {x y : Node α} (h : (Node.binary f x y).Within (k + 1)) :
    x.Within k ∧ y.Within k := by
  obtain ⟨low, comparable⟩ := h
  obtain ⟨left, right⟩ := meets_binary.1 comparable
  rw [height] at low
  exact ⟨⟨by omega, left⟩, ⟨by omega, right⟩⟩

end Within

theorem within_equivalence [PartialEquivBEq α] (k : Nat) :
    EquivalenceOn (Within k : Node α → Prop) same := by
  induction k with
  | zero => exact ⟨nofun, nofun, nofun⟩
  | succ k ih =>
    have signed := sameSigned_equivalence ih
    have factors := factorSame_equivalence ih
    have terms := termSame_equivalence ih
    have sums := terms.matched
    refine ⟨?_, ?_, ?_⟩
    · intro x hx
      cases x with
      | number a => exact same_number.2 ⟨a, rfl, meets_number.1 hx.2⟩
      | constant c negative => exact same_constant.2 rfl
      | var v negative => exact same_var.2 ⟨negative, rfl⟩
      | power f => exact factors.refl f hx.power
      | product t => exact terms.refl t hx.product
      | sum ts => exact same_sum.2 ⟨ts, rfl, sums.refl ts hx.sum⟩
      | unary f a => exact same_unary.2 ⟨a, rfl, signed.refl a hx.unary⟩
      | binary f a b =>
        obtain ⟨left, right⟩ := hx.binary
        exact same_binary.2 ⟨a, b, rfl, signed.refl a left, signed.refl b right⟩
    · intro x y hx hy equal
      cases x with
      | number a =>
        obtain ⟨b, rfl, values⟩ := same_number.1 equal
        exact same_number.2 ⟨a, rfl, PartialEquivBEq.symm values⟩
      | constant c negative =>
        obtain rfl := same_constant.1 equal
        exact equal
      | var v negative =>
        obtain ⟨opposite, rfl⟩ := same_var.1 equal
        exact same_var.2 ⟨negative, rfl⟩
      | power f =>
        obtain ⟨g, rfl, parts⟩ := same_power.1 equal
        exact factors.symm f g hx.power hy.power parts
      | product t =>
        obtain ⟨u, rfl, parts⟩ := same_product.1 equal
        exact terms.symm t u hx.product hy.product parts
      | sum ts =>
        obtain ⟨us, rfl, parts⟩ := same_sum.1 equal
        exact same_sum.2 ⟨ts, rfl, sums.symm ts us hx.sum hy.sum parts⟩
      | unary f a =>
        obtain ⟨b, rfl, parts⟩ := same_unary.1 equal
        exact same_unary.2 ⟨a, rfl, signed.symm a b hx.unary hy.unary parts⟩
      | binary f a b =>
        obtain ⟨c, d, rfl, first, second⟩ := same_binary.1 equal
        obtain ⟨left, right⟩ := hx.binary
        obtain ⟨left', right'⟩ := hy.binary
        exact same_binary.2 ⟨a, b, rfl, signed.symm a c left left' first,
          signed.symm b d right right' second⟩
    · intro x y z hx hy hz equal next
      cases x with
      | number a =>
        obtain ⟨b, rfl, values⟩ := same_number.1 equal
        obtain ⟨c, rfl, others⟩ := same_number.1 next
        exact same_number.2 ⟨c, rfl, PartialEquivBEq.trans values others⟩
      | constant c negative =>
        obtain rfl := same_constant.1 equal
        exact next
      | var v negative =>
        obtain ⟨opposite, rfl⟩ := same_var.1 equal
        exact same_var.2 (same_var.1 next)
      | power f =>
        obtain ⟨g, rfl, parts⟩ := same_power.1 equal
        obtain ⟨h, rfl, others⟩ := same_power.1 next
        exact factors.trans f g h hx.power hy.power hz.power parts others
      | product t =>
        obtain ⟨u, rfl, parts⟩ := same_product.1 equal
        obtain ⟨w, rfl, others⟩ := same_product.1 next
        exact terms.trans t u w hx.product hy.product hz.product parts others
      | sum ts =>
        obtain ⟨us, rfl, parts⟩ := same_sum.1 equal
        obtain ⟨ws, rfl, others⟩ := same_sum.1 next
        exact same_sum.2 ⟨ws, rfl, sums.trans ts us ws hx.sum hy.sum hz.sum parts others⟩
      | unary f a =>
        obtain ⟨b, rfl, parts⟩ := same_unary.1 equal
        obtain ⟨c, rfl, others⟩ := same_unary.1 next
        exact same_unary.2 ⟨c, rfl, signed.trans a b c hx.unary hy.unary hz.unary parts others⟩
      | binary f a b =>
        obtain ⟨c, d, rfl, first, second⟩ := same_binary.1 equal
        obtain ⟨m, n, rfl, third, fourth⟩ := same_binary.1 next
        obtain ⟨low, low'⟩ := hx.binary
        obtain ⟨mid, mid'⟩ := hy.binary
        obtain ⟨high, high'⟩ := hz.binary
        exact same_binary.2 ⟨m, n, rfl, signed.trans a c m low mid high first third,
          signed.trans b d n low' mid' high' second fourth⟩

/-- Equality is an equivalence of the expressions whose numbers all compare. -/
theorem same_equivalence [PartialEquivBEq α] :
    EquivalenceOn (Comparable : Node α → Prop) same where
  refl x hx := (within_equivalence (x.height + 1)).refl x ⟨Nat.lt_succ_self _, hx⟩
  symm x y hx hy := (within_equivalence (x.height + y.height + 1)).symm x y ⟨by omega, hx⟩
    ⟨by omega, hy⟩
  trans x y z hx hy hz := (within_equivalence (x.height + y.height + z.height + 1)).trans x y z
    ⟨by omega, hx⟩ ⟨by omega, hy⟩ ⟨by omega, hz⟩

end Node

/-- Equality of factors is an equivalence where equality is that of the numbers. -/
theorem Factor.same_equivalence [LawfulBEq α] :
    EquivalenceOn (fun _ => True) (Factor.same (α := α)) :=
  (Node.factorSame_equivalence Node.same_equivalence).mono fun f _ =>
    ⟨f.base.comparable, f.exponent.comparable⟩

/-- Likeness is an equivalence of the terms whose numbers all compare. -/
theorem Term.isLike_comparable [PartialEquivBEq α] :
    EquivalenceOn (Comparable : Term α (Node α) → Prop) isLike :=
  (Node.isLike_equivalence_on Node.same_equivalence).mono fun _ h f hf =>
    have parts := (Node.meets_product.1 h).2 f hf
    ⟨parts.base, parts.exponent⟩

end SymbolicAlgebra
