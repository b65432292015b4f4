/-
  Terms that stay as they are
  ===========================
  A term is *composed* when it is built of steady factors with different bases, on
  either side of the bar. Simplifying a composed term has nothing to collect and nothing
  to cancel; it can only bring the coefficient to lowest terms (`Term.lowest`), and
  afterwards the term is *steady*: it is simplified to itself
  (**`Term.Steady.pass_eq`**).

  Reducing a steady term gives its plainest node, which is a steady expression:
  **`Term.Steady.plainest_steady`**.
-/
import SymbolicAlgebra.Proofs.Steady.Canonical

namespace SymbolicAlgebra

open Tally (EquivalenceOn)

variable {α : Type} [FieldScalar α]

/-! ### Different bases -/

/-- Bases of which the comparison of exponents takes the one for the other. -/
theorem Node.sameSigned_equivalence_all :
    EquivalenceOn (fun _ => True) (Node.sameSigned (α := α)) := by
  have powers := (Factor.same_equivalence (α := α)).pull fun n => ⟨n, .number 0⟩
  have tests : (fun m n : Node α => Factor.same ⟨m, .number 0⟩ ⟨n, .number 0⟩) =
      Node.sameSigned := by
    funext m n
    rw [Factor.same_eq]
    simp [Node.sameSigned, Node.same]
  rw [← tests]
  exact powers

theorem Node.sameSigned_symm {m n : Node α} (h : m.sameSigned n = true) :
    n.sameSigned m = true :=
  sameSigned_equivalence_all.symm m n trivial trivial h

theorem Node.sameSigned_trans {k m n : Node α} (h : k.sameSigned m = true)
    (h' : m.sameSigned n = true) : k.sameSigned n = true :=
  sameSigned_equivalence_all.trans k m n trivial trivial trivial h h'

/-- Two factors with different bases. -/
def Factor.Apart (f g : Factor (Node α)) : Prop := f.base.sameSigned g.base = false

theorem Factor.Apart.symm {f g : Factor (Node α)} (h : f.Apart g) : g.Apart f := by
  rw [Apart] at h ⊢
  rw [← h]
  exact Node.sameSigned_equivalence_all.comm trivial trivial

namespace Node

variable {rules : ExponentRules α} {f : Factor (Node α)} {fs gs : List (Factor (Node α))}

theorem collectOne_apart (h : ∀ g ∈ gs, g.Apart f) : collectOne rules f gs = .ok (gs ++ [f]) := by
  induction gs with
  | nil => rfl
  | cons g gs ih =>
    obtain ⟨first, later⟩ := List.forall_mem_cons.1 h
    rw [collectOne, if_neg (by simpa [Factor.Apart] using first), ih later]
    rfl

/-- Factors with different bases are collected already. -/
theorem collect_apart (h : fs.Pairwise Factor.Apart) : collect rules fs = .ok fs := by
  have folded : ∀ fs gs : List (Factor (Node α)), (gs ++ fs).Pairwise Factor.Apart →
      fs.foldlM (fun grouped f => collectOne rules f grouped) gs = .ok (gs ++ fs) := by
    intro fs
    induction fs with
    | nil =>
      intro gs _
      rw [List.append_nil]
      rfl
    | cons f fs ih =>
      intro gs apart
      have first : ∀ g ∈ gs, g.Apart f := by
        intro g hg
        exact (List.pairwise_append.1 apart).2.2 g hg f List.mem_cons_self
      rw [List.foldlM_cons, collectOne_apart first]
      have rest := ih (gs ++ [f]) (by simpa using apart)
      rw [List.append_assoc] at rest
      exact rest
  exact folded fs [] h

theorem cancelOne_apart (h : ∀ g ∈ gs, f.Apart g) : cancelOne f gs = (some f, gs) := by
  induction gs with
  | nil => rfl
  | cons g gs ih =>
    obtain ⟨first, later⟩ := List.forall_mem_cons.1 h
    have differ := first.symm
    rw [cancelOne, if_neg (by simpa [Factor.Apart] using differ), ih later]

/-- Factors with different bases across the bar have nothing to cancel. -/
theorem cancel_apart (h : ∀ f ∈ fs, ∀ g ∈ gs, f.Apart g) : cancel fs gs = (fs, gs) := by
  induction fs with
  | nil => rfl
  | cons f fs ih =>
    obtain ⟨first, later⟩ := List.forall_mem_cons.1 h
    rw [cancel, cancelOne_apart first]
    dsimp only
    rw [ih later]
    rfl

theorem tidyExponents_steady {level : Nat} (h : ∀ f ∈ fs, f.exponent.Steady) :
    tidyExponents (exponentRules level) fs = .ok fs := by
  apply mapM_eq_ok.2
  induction fs with
  | nil => exact .nil
  | cons f fs ih =>
    obtain ⟨first, later⟩ := List.forall_mem_cons.1 h
    refine .cons ?_ (ih later)
    rw [first.tidy]
    rfl

end Node

/-! ### Composed terms -/

namespace Term

/-- The term simplified under the rules of a level, its bases down to a depth. -/
def pass (level depth : Nat) (t : Term α (Node α)) : Checked (Term α (Node α)) :=
  Node.simplifyTerm (Node.exponentRules level) (Node.simplifyAt (Node.exponentRules level) depth) t

theorem simplifyAt_product (level depth : Nat) (t : Term α (Node α)) :
    Node.simplifyAt (Node.exponentRules level) (depth + 1) (.product t) =
      (do return .product (← t.pass level depth)) := rfl

theorem simplifyAt_sum (level depth : Nat) (ts : List (Term α (Node α))) :
    Node.simplifyAt (Node.exponentRules level) (depth + 1) (.sum ts) =
      (do return .sum (← Node.simplifySum (Term.pass level depth) ts)) := rfl

/-- The last step of simplifying a term: it is zero, or its coefficient comes to lowest terms. -/
def lowest (t : Term α (Node α)) : Checked (Term α (Node α)) := do
  if t.isZero then return zero
  let (n, d) ← Scalar.reduceFraction t.numerator t.denominator
  return normal n d t.realFactors t.realDivisors

/-- Built of steady factors with different bases. -/
structure Composed (t : Term α (Node α)) : Prop where
  rebuilt : normal t.numerator t.denominator t.realFactors t.realDivisors = t
  steady : ∀ f ∈ t.realFactors ++ t.realDivisors, f.Steady
  apart : (t.realFactors ++ t.realDivisors).Pairwise Factor.Apart

/-- A composed term with its coefficient in lowest terms. -/
structure Steady (t : Term α (Node α)) : Prop extends t.Composed where
  nonzero : t.isZero = false
  fraction : Scalar.reduceFraction t.numerator t.denominator = .ok (t.numerator, t.denominator)

/-- Simplifying a composed term brings its coefficient to lowest terms. -/
theorem Composed.pass_eq {t : Term α (Node α)} (h : t.Composed) (level depth : Nat) :
    t.pass level depth = t.lowest := by
  obtain ⟨above, below⟩ := List.forall_mem_append.1 h.steady
  obtain ⟨apart, apart', across⟩ := List.pairwise_append.1 h.apart
  have simplified : ∀ fs : List (Factor (Node α)), (∀ f ∈ fs, f.Steady) →
      fs.mapM (Node.simplifyFactor (Node.exponentRules level)
        (Node.simplifyAt (Node.exponentRules level) depth)) = .ok fs := by
    intro fs steady
    apply mapM_eq_ok.2
    induction fs with
    | nil => exact .nil
    | cons f fs ih =>
      obtain ⟨first, later⟩ := List.forall_mem_cons.1 steady
      exact .cons (first.simplifyFactor_eq level depth) (ih later)
  unfold pass Node.simplifyTerm
  rw [simplified _ above, simplified _ below]
  simp only [bind, Except.bind, pure, Except.pure]
  rw [Node.collect_apart apart, Node.collect_apart apart']
  dsimp only
  rw [Node.cancel_apart across]
  dsimp only
  rw [Node.tidyExponents_steady fun f hf => (above f hf).exponent,
    Node.tidyExponents_steady fun f hf => (below f hf).exponent]
  dsimp only
  rw [h.rebuilt]
  rfl

/-- A term with a single factor is steady if the factor and the coefficient are. -/
theorem steady_of_single {t : Term α (Node α)} {f : Factor (Node α)}
    (only : t.realFactors ++ t.realDivisors = [f]) (factor : f.Steady)
    (rebuilt : normal t.numerator t.denominator t.realFactors t.realDivisors = t)
    (nonzero : t.isZero = false)
    (fraction : Scalar.reduceFraction t.numerator t.denominator = .ok (t.numerator, t.denominator)) :
    t.Steady := by
  refine ⟨⟨rebuilt, ?_, ?_⟩, nonzero, fraction⟩
  · rw [only]
    exact List.forall_mem_singleton.2 factor
  · rw [only]
    exact List.pairwise_singleton _ _

/-- A steady term is simplified to itself. -/
theorem Steady.pass_eq {t : Term α (Node α)} (h : t.Steady) (level depth : Nat) :
    t.pass level depth = .ok t := by
  rw [h.toComposed.pass_eq, lowest, h.nonzero, h.fraction]
  exact congrArg Except.ok h.rebuilt

variable [ExactScalar α] [SteadyScalar α]

section Built

variable {fs gs : List (Factor (Node α))} (steady : ∀ f ∈ fs ++ gs, f.Steady)

include steady

omit [ExactScalar α] [SteadyScalar α] in
/-- A term built of steady factors has just these. -/
theorem normal_real (n d : α) :
    (normal n d fs gs).realFactors = fs ∧ (normal n d fs gs).realDivisors = gs := by
  obtain ⟨above, below⟩ := List.forall_mem_append.1 steady
  obtain ⟨factors, divisors⟩ := normal_of_stable (n := n) (d := d)
    (fun f hf => (above f hf).lasts.stable) fun f hf => (below f hf).lasts.stable
  rw [factors, divisors]
  constructor
  · exact List.filter_eq_self.2 fun f hf => by rw [(above f hf).real, Bool.not_false]
  · exact List.filter_eq_self.2 fun f hf => by rw [(below f hf).real, Bool.not_false]

omit [ExactScalar α] [SteadyScalar α] in
theorem normal_steady (n d : α) : normal n d fs gs = settled ⟨n, d, fs, gs⟩ := by
  obtain ⟨above, below⟩ := List.forall_mem_append.1 steady
  exact normal_eq_settled (fun f hf => (above f hf).lasts.stable)
    fun f hf => (below f hf).lasts.stable

omit [ExactScalar α] [SteadyScalar α] in
theorem normal_positive {n d : α} (positive : Scalar.lt d 0 = false) :
    normal n d fs gs = ⟨n, d, if fs.isEmpty then [Factor.empty] else fs,
      if gs.isEmpty then [Factor.empty] else gs⟩ := by
  rw [normal_steady steady, settled, if_neg (by simp [positive])]

omit steady in
theorem settled_denominator (t : Term α (Node α)) : Scalar.lt t.settled.denominator 0 = false := by
  rw [settled]
  split
  · rename_i negative
    exact SteadyScalar.lt_neg _ negative
  · rename_i positive
    simpa using positive

/-- A term built of steady factors with different bases is composed. -/
theorem composed_normal (apart : (fs ++ gs).Pairwise Factor.Apart) (n d : α) :
    (normal n d fs gs).Composed := by
  obtain ⟨factors, divisors⟩ := normal_real steady n d
  refine ⟨?_, by rwa [factors, divisors], by rwa [factors, divisors]⟩
  -- the sign of the denominator is settled once
  have positive := settled_denominator ⟨n, d, fs, gs⟩
  rw [factors, divisors, normal_steady steady, normal_steady steady]
  conv_lhs => rw [settled]
  rw [if_neg (by simp [positive])]
  rw [settled]
  split <;> rfl

/-- A term built of steady factors with different bases is steady, if it is not zero and its
coefficient is in lowest terms. -/
theorem steady_normal (apart : (fs ++ gs).Pairwise Factor.Apart) {n d : α}
    (positive : Scalar.lt d 0 = false) (nonzero : (normal n d fs gs).isZero = false)
    (fraction : Scalar.reduceFraction n d = .ok (n, d)) : (normal n d fs gs).Steady := by
  refine ⟨composed_normal steady apart n d, nonzero, ?_⟩
  rw [normal_positive steady positive]
  exact fraction

end Built

omit [SteadyScalar α] in
theorem zero_eq : (zero : Term α (Node α)) = ⟨0, 1, [Factor.empty], [Factor.empty]⟩ := by
  have none : ∀ f ∈ ([] ++ [] : List (Factor (Node α))), f.Steady := by
    intro f hf
    cases hf
  exact normal_positive none ExactScalar.one_lt_zero

theorem zero_composed : (zero : Term α (Node α)).Composed :=
  composed_normal (fun f hf => by cases hf) .nil 0 1

omit [SteadyScalar α] in
theorem zero_isZero : (zero : Term α (Node α)).isZero = true := by
  rw [isZero_eq, zero_eq]
  simp

/-- A term of steady factors with different bases comes to zero or to a steady term with its
factors. -/
theorem lowest_spec {t : Term α (Node α)} (steady : ∀ f ∈ t.realFactors ++ t.realDivisors, f.Steady)
    (apart : (t.realFactors ++ t.realDivisors).Pairwise Factor.Apart)
    (positive : Scalar.lt t.denominator 0 = false) :
    ∃ u, t.lowest = .ok u ∧ (u = zero ∨
      (u.Steady ∧ u.realFactors = t.realFactors ∧ u.realDivisors = t.realDivisors)) := by
  by_cases vanishes : t.isZero = true
  · exact ⟨zero, by rw [lowest, if_pos vanishes]; rfl, .inl rfl⟩
  obtain ⟨m, c, reduced⟩ := SteadyScalar.reduceFraction_exists t.numerator t.denominator
  obtain ⟨again, sign, above, below⟩ := SteadyScalar.reduceFraction_again reduced positive
  obtain ⟨factors, divisors⟩ := normal_real steady m c
  have zero : (normal m c t.realFactors t.realDivisors).isZero = t.isZero := by
    rw [isZero_eq, isZero_eq, factors, normal_positive steady sign]
    dsimp only
    rw [Bool.eq_iff_iff]
    simp only [Bool.and_eq_true, Bool.or_eq_true, Bool.not_eq_true', beq_iff_eq, beq_eq_false_iff_ne,
      ne_eq, above, below]
  have nonzero : (normal m c t.realFactors t.realDivisors).isZero = false := by
    rw [zero]
    simpa using vanishes
  refine ⟨normal m c t.realFactors t.realDivisors, ?_,
    .inr ⟨steady_normal steady apart sign nonzero again, factors, divisors⟩⟩
  rw [lowest, if_neg vanishes, reduced]
  rfl

theorem Composed.lowest_spec {t : Term α (Node α)} (h : t.Composed) :
    ∃ u, t.lowest = .ok u ∧ (u = zero ∨
      (u.Steady ∧ u.realFactors = t.realFactors ∧ u.realDivisors = t.realDivisors)) := by
  apply Term.lowest_spec h.steady h.apart
  rw [← h.rebuilt, normal_steady h.steady]
  exact settled_denominator _

/-- Zero is simplified to itself. -/
theorem pass_zero (level depth : Nat) :
    (zero : Term α (Node α)).pass level depth = .ok zero := by
  rw [zero_composed.pass_eq, lowest, zero_isZero]
  rfl

/-! ### Reducing -/

section Reducing

omit [ExactScalar α] [SteadyScalar α]

theorem Steady.canonical {t : Term α (Node α)} (h : t.Steady) : t.Canonical where
  rebuilt := h.rebuilt
  lasts f hf := (h.steady f hf).lasts

/-- A steady term reduces to its plainest node, whatever the bound. -/
theorem Steady.reduceTerm_eq {t : Term α (Node α)} (h : t.Steady) (height : Nat) :
    Node.reduceTerm (Node.reduceAt height) t = t.plainest := by
  apply h.canonical.reduceTerm_eq h.nonzero
  intro f hf
  exact ⟨(h.steady f hf).base.reduced height, (h.steady f hf).exponent.reduced height⟩

end Reducing

end Term

/-- A steady factor with another exponent than one is steady as a power. -/
theorem Factor.Steady.power_steady {f : Factor (Node α)} (h : f.Steady)
    (other : f.exponent.isUnit = false) : (Node.power f).Steady where
  simplified level depth := by
    cases depth with
    | zero => rfl
    | succ depth =>
      rw [Node.simplifyAt, h.simplifyFactor_eq]
      rfl
  reduced height := by
    cases height with
    | zero => rfl
    | succ height =>
      rw [Node.reduceAt, h.lasts.reduceFactor_eq (h.base.reduced height) (h.exponent.reduced height),
        Factor.shown_of_other other]

namespace Term

theorem Steady.product_steady {t : Term α (Node α)} (h : t.Steady)
    (unreduced : t.plainest = .product t) : (Node.product t).Steady where
  simplified level depth := by
    cases depth with
    | zero => rfl
    | succ depth =>
      rw [simplifyAt_product, h.pass_eq]
      rfl
  reduced height := by
    cases height with
    | zero => rfl
    | succ height => rw [Node.reduceAt, h.reduceTerm_eq, unreduced]

variable [ExactScalar α]

/-- A steady term reduces to a steady expression. -/
theorem Steady.plainest_steady {t : Term α (Node α)} (h : t.Steady) : t.plainest.Steady := by
  have form := h.canonical.form h.nonzero
  generalize reduced : t.plainest = n at form
  cases form with
  | product => exact h.product_steady reduced
  | number x => exact .number x
  | shown f present member =>
    have single := h.steady f (List.mem_append_left _ member)
    cases unit : f.isUnit with
    | false => exact Factor.shown_of_other unit ▸ single.power_steady unit
    | true => exact Factor.shown_of_isUnit unit ▸ single.base
  | var v => exact .var v true
  | constant c => exact .constant c true

end Term

end SymbolicAlgebra
