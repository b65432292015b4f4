/-
  Simplifying keeps the value
  ===========================
  Given rules that add and tidy exponents rightly, simplifying replaces every
  admitted expression: **`Node.simplifyAt_replacing`**. It always has a result,
  because every fraction of the field can be reduced.

  Under the plain discipline the rules have only numbers to add, so they are right at
  every level: **`ExponentRules.sound_plain`**.
-/
import SymbolicAlgebra.Proofs.Value.Collect

namespace SymbolicAlgebra

variable {α : Type} [FieldScalar α] [ExactScalar α] {D : Discipline} {s : Scope α}

/-! ### Fractions of terms -/

namespace Term

/-- A term built anew from its own factors, over an equal coefficient. -/
theorem reducedFraction_spec {t : Term α (Node α)} (h : t.Admitted D s) {n d : α} (denominator : d ≠ 0) :
    ∃ m c, Scalar.reduceFraction n d = .ok (m, c) ∧
      (normal m c t.realFactors t.realDivisors).Admitted D s ∧
        (normal m c t.realFactors t.realDivisors).value s =
          n * Node.factorsValue s t.realFactors / (d * Node.factorsValue s t.realDivisors) := by
  obtain ⟨m, c, reduced, nonzero, quotient⟩ := ExactScalar.reduceFraction_eq n denominator
  obtain ⟨admitted, value⟩ := normal_spec (n := m) nonzero
    (fun f hf => h.factors f (mem_factors hf)) (fun f hf => h.divisors f (mem_divisors hf))
    fun f hf => h.nonzero f (mem_divisors hf)
  refine ⟨m, c, reduced, admitted, ?_⟩
  rw [value, mul_div_mul_comm, mul_div_mul_comm, quotient]

/-- The sum of two like terms. -/
theorem combine_spec {t u : Term α (Node α)} (ht : t.Admitted D s) (hu : u.Admitted D s)
    (like : t.isLike u = true) :
    ∃ r, t.combine u = .ok r ∧ r.Admitted D s ∧ r.value s = t.value s + u.value s := by
  obtain ⟨factors, divisors⟩ := isLike_spec ht hu like
  have left := ht.denominator
  have right := hu.denominator
  obtain ⟨m, c, reduced, admitted, value⟩ := reducedFraction_spec ht
    (n := t.numerator * u.denominator + u.numerator * t.denominator) (mul_ne_zero left right)
  refine ⟨normal m c t.realFactors t.realDivisors, ?_, admitted, ?_⟩
  · rw [combine, reduced]
    rfl
  · rw [value, value_real ht, value_real hu, ← factors, ← divisors]
    field_simp

end Term

namespace Node

variable {rules : ExponentRules α} {simplify : Node α → Checked (Node α)}

/-! ### Terms -/

/-- The factors on one side of the bar, simplified and collected. -/
theorem collected_spec (sound : rules.Sound D s) (inner : Replacing D s simplify)
    {fs : List (Factor (Node α))} (hf : ∀ f ∈ fs, f.Retained D s) :
    ∃ gs, fs.mapM (simplifyFactor rules simplify) = .ok gs ∧
      ∃ ks, collect rules gs = .ok ks ∧ (∀ k ∈ ks, k.Retained D s) ∧
        factorsValue s ks = factorsValue s fs := by
  have each : ∀ f ∈ fs, ∃ g, simplifyFactor rules simplify f = .ok g ∧
      (g.Retained D s ∧ g.value s = f.value s) := by
    intro f member
    obtain ⟨g, result, admitted, value, kept⟩ :=
      simplifyFactor_spec sound inner (hf f member).admitted
    exact ⟨g, result, ⟨admitted, kept (hf f member).kept⟩, value⟩
  obtain ⟨gs, simplified, related⟩ := mapM_exists each
  have retained := factorsValue_related related
  obtain ⟨ks, collected, members, value⟩ := collect_spec sound retained.1
  exact ⟨gs, simplified, ks, collected, members, value.trans retained.2⟩

omit [ExactScalar α] in
theorem retained_of_listed {f : Factor (Node α)} (h : f.Admitted D s) (listed : D.Listed s f) :
    f.Retained D s := by
  refine ⟨h, ?_⟩
  cases D with
  | plain => trivial
  | stable => exact listed.1

/-- A term simplified: its factors collected and cancelled, its coefficient reduced. -/
theorem simplifyTerm_spec (sound : rules.Sound D s) (inner : Replacing D s simplify)
    {t : Term α (Node α)} (h : t.Admitted D s) :
    ∃ u, simplifyTerm rules simplify t = .ok u ∧ u.Admitted D s ∧ u.value s = t.value s := by
  have realAbove : ∀ f ∈ t.realFactors, f.Retained D s := by
    intro f hf
    exact retained_of_listed (h.factors f (Term.mem_factors hf)) (h.above f hf)
  have realBelow : ∀ f ∈ t.realDivisors, f.Retained D s := by
    intro f hf
    exact retained_of_listed (h.divisors f (Term.mem_divisors hf)) (h.below f hf)
  obtain ⟨fs, simplified, above, collected, retained, product⟩ :=
    collected_spec sound inner realAbove
  obtain ⟨gs, simplifiedBelow, below, collectedBelow, retainedBelow, divisor⟩ :=
    collected_spec sound inner realBelow
  have real : factorsValue s t.realDivisors ≠ 0 :=
    factorsValue_ne_zero fun f hf => h.nonzero f (Term.mem_divisors hf)
  have nonzero : ∀ k ∈ below, k.value s ≠ 0 := by
    intro k hk zero
    exact real (divisor ▸ factorsValue_eq_zero.2 ⟨k, hk, zero⟩)
  obtain ⟨keptAbove, keptBelow, ratio⟩ := cancel_spec retained retainedBelow nonzero
  rw [product, divisor] at ratio
  generalize cancelled : cancel above below = rest at keptAbove keptBelow ratio
  obtain ⟨tops, bottoms⟩ := rest
  obtain ⟨ms, tidied, top, topValue⟩ := tidyExponents_spec sound fun k hk => (keptAbove k hk).admitted
  obtain ⟨ns, tidiedBelow, bottom, bottomValue⟩ :=
    tidyExponents_spec sound fun k hk => (keptBelow k hk).1.admitted
  have bottomNonzero : ∀ k ∈ ns, k.value s ≠ 0 := by
    intro k hk zero
    refine factorsValue_ne_zero (fun m hm => (keptBelow m hm).2) ?_
    rw [← bottomValue]
    exact factorsValue_eq_zero.2 ⟨k, hk, zero⟩
  obtain ⟨admitted, value⟩ := Term.normal_spec (n := t.numerator) h.denominator top bottom bottomNonzero
  rw [topValue, bottomValue, mul_div_mul_comm, ratio, ← mul_div_mul_comm, ← Term.value_real h] at value
  unfold simplifyTerm
  rw [simplified, simplifiedBelow]
  simp only [bind, Except.bind, pure, Except.pure, collected, collectedBelow, cancelled, tidied,
    tidiedBelow]
  generalize Term.normal t.numerator t.denominator ms ns = term at admitted value ⊢
  split
  · rename_i zero
    obtain ⟨none, vanishes⟩ := Term.ofValue_spec (D := D) (s := s) (0 : α)
    refine ⟨_, rfl, none, ?_⟩
    rw [← value, Term.value_of_isZero admitted zero]
    exact vanishes
  · obtain ⟨n, d, reduced, built, same⟩ :=
      Term.reducedFraction_spec admitted (n := term.numerator) admitted.denominator
    rw [reduced]
    refine ⟨_, rfl, built, ?_⟩
    rw [same, ← Term.value_real admitted, value]

/-! ### Sums -/

/-- An operation on terms that keeps their values. -/
def Preserving (D : Discipline) (s : Scope α) (f : Term α (Node α) → Checked (Term α (Node α))) :
    Prop :=
  ∀ t : Term α (Node α), t.Admitted D s →
    ∃ u, f t = .ok u ∧ u.Admitted D s ∧ u.value s = t.value s

variable {step : Term α (Node α) → Checked (Term α (Node α))}

/-- A term merged with the like one among others. -/
theorem mergeOne_spec (inner : Preserving D s step) {t : Term α (Node α)} (ht : t.Admitted D s)
    {us : List (Term α (Node α))} (hu : ∀ u ∈ us, u.Admitted D s) :
    ∃ ks, mergeOne step t us = .ok ks ∧ (∀ k ∈ ks, k.Admitted D s) ∧
      termsValue s ks = t.value s + termsValue s us := by
  induction us with
  | nil =>
    refine ⟨[t], rfl, fun k hk => List.mem_singleton.1 hk ▸ ht, ?_⟩
    rw [termsValue_cons]
  | cons u us ih =>
    obtain ⟨first, later⟩ := List.forall_mem_cons.1 hu
    rw [mergeOne]
    by_cases like : u.isLike t = true
    · obtain ⟨r, combined, sum, value⟩ := Term.combine_spec first ht like
      obtain ⟨k, simplified, admitted, same⟩ := inner r sum
      rw [if_pos like, combined]
      refine ⟨k :: us, ?_, List.forall_mem_cons.2 ⟨admitted, later⟩, ?_⟩
      · simp only [bind, Except.bind, pure, Except.pure, simplified]
      · rw [termsValue_cons, termsValue_cons, same, value]
        ring
    · obtain ⟨ks, merged, rest, value⟩ := ih later
      rw [if_neg like, merged]
      refine ⟨u :: ks, rfl, List.forall_mem_cons.2 ⟨first, rest⟩, ?_⟩
      rw [termsValue_cons, termsValue_cons, value]
      ring

/-- The terms of a sum simplified and merged. -/
theorem simplifySum_spec (inner : Preserving D s step) {ts : List (Term α (Node α))}
    (ht : ∀ t ∈ ts, t.Admitted D s) :
    ∃ us, simplifySum step ts = .ok us ∧ (∀ u ∈ us, u.Admitted D s) ∧
      termsValue s us = termsValue s ts := by
  have folded : ∀ ts us : List (Term α (Node α)), (∀ t ∈ ts, t.Admitted D s) →
      (∀ u ∈ us, u.Admitted D s) →
        ∃ ks, ts.foldlM (fun merged t => do mergeOne step (← step t) merged) us = .ok ks ∧
          (∀ k ∈ ks, k.Admitted D s) ∧ termsValue s ks = termsValue s ts + termsValue s us := by
    intro ts
    induction ts with
    | nil =>
      intro us _ hu
      exact ⟨us, rfl, hu, by rw [termsValue_nil, zero_add]⟩
    | cons t ts ih =>
      intro us ht hu
      obtain ⟨first, later⟩ := List.forall_mem_cons.1 ht
      obtain ⟨u, simplified, admitted, value⟩ := inner t first
      obtain ⟨ks, merged, members, sum⟩ := mergeOne_spec inner admitted hu
      obtain ⟨ms, rest, others, total⟩ := ih ks later members
      refine ⟨ms, ?_, others, ?_⟩
      · rw [List.foldlM_cons]
        simp only [bind, Except.bind, simplified, merged]
        exact rest
      · rw [total, sum, value, termsValue_cons]
        ring
  obtain ⟨ks, merged, members, value⟩ := folded ts [] ht fun u hu => by cases hu
  obtain ⟨admitted, same⟩ := flattenedTerms_spec members
  refine ⟨flattenedTerms ks, ?_, admitted, ?_⟩
  · rw [simplifySum, merged]
    rfl
  · rw [same, value, termsValue_nil, add_zero]

/-! ### Trees -/

/-- Simplifying to any depth replaces the expression. -/
theorem simplifyAt_replacing (sound : rules.Sound D s) (depth : Nat) :
    Replacing D s (simplifyAt rules depth) := by
  induction depth with
  | zero => exact fun n h => ⟨n, rfl, .refl h⟩
  | succ depth ih =>
    intro n h
    have terms : Preserving D s (simplifyTerm rules (simplifyAt rules depth)) :=
      fun t ht => simplifyTerm_spec sound ih ht
    cases n with
    | power f =>
      obtain ⟨g, result, admitted, value, -⟩ := simplifyFactor_spec sound ih h
      refine ⟨.power g, ?_, admitted, ?_, fun leaf => by cases leaf⟩
      · rw [simplifyAt, result]
        rfl
      · rw [value_power, value_power, value]
    | product t =>
      obtain ⟨u, result, admitted, value⟩ := terms t h
      refine ⟨.product u, ?_, admitted, value, fun leaf => by cases leaf⟩
      rw [simplifyAt, result]
      rfl
    | sum ts =>
      obtain ⟨us, result, admitted, value⟩ := simplifySum_spec terms (admitted_sum.1 h)
      refine ⟨.sum us, ?_, admitted_sum.2 admitted, ?_, fun leaf => by cases leaf⟩
      · rw [simplifyAt, result]
        rfl
      · rw [value_sum, value_sum, value]
    | unary f x =>
      cases h with
      | unary _ _ argument =>
        obtain ⟨y, result, part⟩ := ih x argument
        refine ⟨.unary f y, ?_, .unary f y part.admitted, ?_, fun leaf => by cases leaf⟩
        · rw [simplifyAt, result]
          rfl
        · rw [Node.value, Node.value, part.value]
    | binary f x y =>
      cases h with
      | binary _ _ _ left right =>
        obtain ⟨z, result, first⟩ := ih x left
        obtain ⟨w, result', second⟩ := ih y right
        refine ⟨.binary f z w, ?_, .binary f z w first.admitted second.admitted, ?_,
          fun leaf => by cases leaf⟩
        · rw [simplifyAt, result, result']
          rfl
        · rw [Node.value, Node.value, first.value, second.value]
    | _ => exact ⟨_, rfl, .refl h⟩

end Node

/-! ### Plain exponents -/

omit [ExactScalar α] in
/-- Rules at any level add and tidy plain numbers rightly. -/
theorem ExponentRules.sound_plain (level : Nat) :
    (Node.exponentRules level : ExponentRules α).Sound .plain s := by
  have plain : ∀ e : Node α, Discipline.plain.Exponent e → ∃ x, e = .number x := by
    intro e number
    cases e with
    | number x => exact ⟨x, rfl⟩
    | _ => cases number
  constructor
  · intro m n _ _ left right
    obtain ⟨x, rfl⟩ := plain m left
    obtain ⟨y, rfl⟩ := plain n right
    refine ⟨.number (x + y), ?_, .number _, ?_, fun _ _ => rfl⟩
    · have added : (Node.exponentRules level).add (.number x) (.number y) =
          .ok (Node.ofValue (x + y)) := by
        cases level <;> rfl
      rw [added, FieldScalar.ofValue_eq]
    · rw [Node.value, Node.value, Node.value]
  · intro e _ exponent
    obtain ⟨x, rfl⟩ := plain e exponent
    refine ⟨.number x, ?_, .refl (.number x)⟩
    cases level <;> rfl

end SymbolicAlgebra
