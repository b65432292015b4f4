/-
  Adding keeps the value
  ======================
  Two terms are added over a common denominator. Each takes into both of its sides
  the divisors of the other that it lacks; if its factors are stable it gets just
  these, so that both have matching divisors afterwards, and what is put over the
  divisors of the one is over those of the other as well: **`Node.addTerms_spec`**.
  Under the stable discipline every term has stable factors; under the plain one it has
  to be asked of the summands (`Node.Addable`).

  Adding ends in simplifying a sum, and simplifying adds exponents, so the rules for
  exponents are right at every level: **`ExponentRules.sound_stable`**.
-/
import SymbolicAlgebra.Proofs.Value.Simplify
import SymbolicAlgebra.Proofs.Algebra.Likeness

namespace SymbolicAlgebra

variable {α : Type} [FieldScalar α] [ExactScalar α] {D : Discipline} {s : Scope α}

/-! ### Rebuilding -/

namespace Node

/-- The factors of a term rebuilt. -/
theorem clonedFactors_spec {fs : List (Factor (Node α))} (h : ∀ f ∈ fs, f.Admitted D s)
    (each : ∀ f ∈ fs, (Node.power f).clone.Replaces D s (.power f)) :
    (∀ f ∈ cloneFactors fs, f.Admitted D s) ∧
      factorsValue s (cloneFactors fs) = factorsValue s fs := by
  rw [cloneFactors_eq, ← factorsValue_real h]
  have real : ∀ f ∈ realFactors fs, f ∈ fs := fun f hf => (List.mem_filter.1 hf).1
  generalize realFactors fs = gs at real
  induction gs with
  | nil => exact ⟨(fun f hf => by cases hf), rfl⟩
  | cons g gs ih =>
    obtain ⟨first, later⟩ := List.forall_mem_cons.1 real
    obtain ⟨admitted, value⟩ := ih later
    have power := each g first
    rw [clone] at power
    have same := power.value
    rw [value_power, value_power] at same
    rw [List.map_cons, factorsValue_cons, factorsValue_cons, value, same]
    exact ⟨List.forall_mem_cons.2 ⟨power.admitted, admitted⟩, rfl⟩

/-- Rebuilding replaces an expression. -/
theorem clone_replaces {n : Node α} (h : n.Admitted D s) : n.clone.Replaces D s n := by
  induction h with
  | number x => exact .refl (.number x)
  | constant c negative collapsed => exact .refl (.constant c negative collapsed)
  | var v negative x bound => exact .refl (.var v negative x bound)
  | power f base exponent defined base_ih exponent_ih =>
    obtain ⟨admitted, value, -⟩ :=
      Factor.replaced (.power f base exponent defined) base_ih exponent_ih
    rw [clone]
    refine ⟨admitted, ?_, fun leaf => by cases leaf⟩
    rw [value_power, value_power, value]
  | product t denominator factors divisors nonzero above below factors_ih divisors_ih =>
    obtain ⟨tops, product⟩ := clonedFactors_spec factors factors_ih
    obtain ⟨bottoms, divisor⟩ := clonedFactors_spec divisors divisors_ih
    have bounded : ∀ g ∈ cloneFactors t.divisors, g.value s ≠ 0 := by
      intro g hg zero
      apply factorsValue_ne_zero nonzero
      rw [← divisor]
      exact factorsValue_eq_zero.2 ⟨g, hg, zero⟩
    obtain ⟨admitted, value⟩ := Term.normal_spec (n := t.numerator) denominator tops bottoms bounded
    rw [clone]
    refine ⟨admitted, ?_, fun leaf => by cases leaf⟩
    rw [product, divisor, ← Term.value_eq] at value
    exact value
  | sum ts terms terms_ih =>
    have each : (∀ t ∈ cloneTerms ts, t.Admitted D s) ∧
        termsValue s (cloneTerms ts) = termsValue s ts := by
      rw [cloneTerms_eq]
      clear terms
      induction ts with
      | nil => exact ⟨(fun t ht => by cases ht), rfl⟩
      | cons t ts ih =>
        obtain ⟨first, later⟩ := List.forall_mem_cons.1 terms_ih
        obtain ⟨admitted, value⟩ := ih later
        rw [List.map_cons, termsValue_cons, termsValue_cons, value]
        refine ⟨List.forall_mem_cons.2 ⟨first.admitted, admitted⟩, ?_⟩
        congr 1
        exact first.value
    obtain ⟨admitted, value⟩ := flattenedTerms_spec each.1
    rw [clone]
    refine ⟨admitted_sum.2 admitted, ?_, fun leaf => by cases leaf⟩
    rw [value_sum, value_sum, value, each.2]
  | unary f x argument ih =>
    rw [clone]
    refine ⟨.unary f _ ih.admitted, ?_, fun leaf => by cases leaf⟩
    rw [Node.value, Node.value, ih.value]
  | binary f x y left right left_ih right_ih =>
    rw [clone]
    refine ⟨.binary f _ _ left_ih.admitted right_ih.admitted, ?_, fun leaf => by cases leaf⟩
    rw [Node.value, Node.value, left_ih.value, right_ih.value]

end Node

/-! ### Common denominators -/

namespace Term

/-- Every factor of the term that counts is stable. -/
structure Stable (t : Term α (Node α)) : Prop where
  above : ∀ f ∈ t.realFactors, f.Stable
  below : ∀ f ∈ t.realDivisors, f.Stable

omit [ExactScalar α] in
theorem Admitted.stable {t : Term α (Node α)} (h : t.Admitted .stable s) : t.Stable where
  above f hf := (h.above f hf).2
  below f hf := (h.below f hf).2

omit [ExactScalar α] in
/-- Stable factors are multiplied into a term as they stand. -/
theorem normal_eq_settled {n d : α} {fs gs : List (Factor (Node α))} (above : ∀ f ∈ fs, f.Stable)
    (below : ∀ g ∈ gs, g.Stable) : normal n d fs gs = settled ⟨n, d, fs, gs⟩ :=
  normal_pushed (List.forall_mem_append.2 ⟨above, below⟩)

omit [ExactScalar α] in
/-- A term built from stable factors has just these. -/
theorem normal_of_stable {n d : α} {fs gs : List (Factor (Node α))} (above : ∀ f ∈ fs, f.Stable)
    (below : ∀ g ∈ gs, g.Stable) :
    (normal n d fs gs).realFactors = SymbolicAlgebra.realFactors fs ∧
      (normal n d fs gs).realDivisors = SymbolicAlgebra.realFactors gs := by
  rw [normal_eq_settled above below]
  exact settled_real _

/-- A term over a common denominator: what it lacks is above and below. -/
theorem overShared_spec {t : Term α (Node α)} (h : t.Admitted D s) (stable : t.Stable)
    (shared : Tally (Factor (Node α)))
    (lacks : ∀ f ∈ shared.excess Factor.same (Tally.ofList Factor.same t.realDivisors),
      f.Admitted D s ∧ f.value s ≠ 0 ∧ f.Stable ∧ ¬ f.isOne = true) :
    (t.overShared shared).Admitted D s ∧ (t.overShared shared).value s = t.value s ∧
      (t.overShared shared).realDivisors =
        t.realDivisors ++ shared.excess Factor.same (Tally.ofList Factor.same t.realDivisors) := by
  unfold overShared
  dsimp only
  generalize shared.excess Factor.same (Tally.ofList Factor.same t.realDivisors) = lacking at lacks ⊢
  by_cases none : lacking.isEmpty = true
  · rw [if_pos none, List.isEmpty_iff.1 none, List.append_nil]
    exact ⟨h, rfl, rfl⟩
  · rw [if_neg none]
    have above : ∀ f ∈ t.realFactors ++ lacking, f.Admitted D s ∧ f.Stable := by
      intro f hf
      rcases List.mem_append.1 hf with hf | hf
      · exact ⟨h.factors f (mem_factors hf), stable.above f hf⟩
      · exact ⟨(lacks f hf).1, (lacks f hf).2.2.1⟩
    have below : ∀ f ∈ t.realDivisors ++ lacking,
        f.Admitted D s ∧ f.value s ≠ 0 ∧ f.Stable := by
      intro f hf
      rcases List.mem_append.1 hf with hf | hf
      · exact ⟨h.divisors f (mem_divisors hf), h.nonzero f (mem_divisors hf), stable.below f hf⟩
      · exact ⟨(lacks f hf).1, (lacks f hf).2.1, (lacks f hf).2.2.1⟩
    obtain ⟨admitted, value⟩ := normal_spec (n := t.numerator) h.denominator
      (fun f hf => (above f hf).1) (fun f hf => (below f hf).1) fun f hf => (below f hf).2.1
    obtain ⟨-, divisors⟩ := normal_of_stable (n := t.numerator) (d := t.denominator)
      (fun f hf => (above f hf).2) fun f hf => (below f hf).2.2
    refine ⟨admitted, ?_, ?_⟩
    · have nonzero : Node.factorsValue s lacking ≠ 0 :=
        Node.factorsValue_ne_zero fun f hf => (lacks f hf).2.1
      rw [value, value_real h, Node.factorsValue_append, Node.factorsValue_append, ← mul_assoc,
        ← mul_assoc, mul_div_mul_right _ _ nonzero]
    · rw [divisors]
      apply List.filter_eq_self.2
      intro f hf
      rcases List.mem_append.1 hf with hf | hf
      · exact (List.mem_filter.1 hf).2
      · simpa using (lacks f hf).2.2.2

/-- The factors of a term above the bar alone. -/
theorem uncovered_spec {t : Term α (Node α)} (h : t.Admitted D s) :
    (normal t.numerator t.denominator t.realFactors []).Admitted D s ∧
      (normal t.numerator t.denominator t.realFactors []).value s =
        t.value s * Node.factorsValue s t.realDivisors := by
  obtain ⟨admitted, value⟩ := normal_spec (n := t.numerator) h.denominator
    (fun f hf => h.factors f (mem_factors hf)) (List.forall_mem_nil _) (List.forall_mem_nil _)
  have nonzero : Node.factorsValue s t.realDivisors ≠ 0 :=
    Node.factorsValue_ne_zero fun f hf => h.nonzero f (mem_divisors hf)
  have denominator := h.denominator
  refine ⟨admitted, ?_⟩
  rw [value, value_real h, Node.factorsValue_nil]
  field_simp

end Term

namespace Node

/-- Simplifying the terms of a sum succeeds and keeps their sum. -/
def Summing (D : Discipline) (s : Scope α)
    (f : List (Term α (Node α)) → Checked (List (Term α (Node α)))) : Prop :=
  ∀ ts : List (Term α (Node α)), (∀ t ∈ ts, t.Admitted D s) →
    ∃ us, f ts = .ok us ∧ (∀ u ∈ us, u.Admitted D s) ∧ termsValue s us = termsValue s ts

variable {simplify : List (Term α (Node α)) → Checked (List (Term α (Node α)))}

/-- The divisors of two terms over their common denominator have one product. -/
theorem common_spec {t u : Term α (Node α)} (ht : t.Admitted D s) (hu : u.Admitted D s)
    (first : t.Stable) (second : u.Stable) :
    let shared := (Tally.ofList Factor.same t.realDivisors).union Factor.same
      (Tally.ofList Factor.same u.realDivisors)
    ((t.overShared shared).Admitted D s ∧ (t.overShared shared).value s = t.value s) ∧
      ((u.overShared shared).Admitted D s ∧ (u.overShared shared).value s = u.value s) ∧
        factorsValue s (t.overShared shared).realDivisors = factorsValue s (u.overShared shared).realDivisors := by
  intro shared
  have members : ∀ f ∈ t.realDivisors ++ u.realDivisors,
      f.Admitted D s ∧ f.value s ≠ 0 ∧ f.Stable ∧ ¬ f.isOne = true := by
    intro f hf
    rcases List.mem_append.1 hf with hf | hf
    · exact ⟨ht.divisors f (Term.mem_divisors hf), ht.nonzero f (Term.mem_divisors hf),
        first.below f hf, by simpa using (List.mem_filter.1 hf).2⟩
    · exact ⟨hu.divisors f (Term.mem_divisors hf), hu.nonzero f (Term.mem_divisors hf),
        second.below f hf, by simpa using (List.mem_filter.1 hf).2⟩
  obtain ⟨left, leftValue, leftDivisors⟩ :=
    Term.overShared_spec ht first shared fun f hf => members f (Tally.mem_filling hf)
  obtain ⟨right, rightValue, rightDivisors⟩ :=
    Term.overShared_spec hu second shared fun f hf => members f (Tally.mem_filling hf)
  refine ⟨⟨left, leftValue⟩, ⟨right, rightValue⟩, ?_⟩
  -- every divisor stands on both sides as often as on the side that has more of it
  have matching : Tally.matched Factor.same
      (t.realDivisors ++ shared.excess Factor.same (Tally.ofList Factor.same t.realDivisors))
      (u.realDivisors ++ shared.excess Factor.same (Tally.ofList Factor.same u.realDivisors)) = true :=
    Tally.matched_filled Factor.same_equivalence t.realDivisors u.realDivisors
  rw [← leftDivisors, ← rightDivisors] at matching
  have leftMembers : ∀ f ∈ (t.overShared shared).realDivisors, f.Admitted D s :=
    fun f hf => left.divisors f (Term.mem_divisors hf)
  have rightMembers : ∀ f ∈ (u.overShared shared).realDivisors, f.Admitted D s :=
    fun f hf => right.divisors f (Term.mem_divisors hf)
  apply factorsValue_of_same leftMembers rightMembers
  · intro f hf g hg equal
    exact Factor.value_of_same (leftMembers f hf) hg equal
  · rw [sameFactors_eq]
    convert matching using 2
    exact List.filter_eq_self.2 fun f hf => (List.mem_filter.1 hf).2

/-- The sum of two terms. -/
theorem addTerms_spec (inner : Summing D s simplify) {t u : Term α (Node α)}
    (ht : t.Admitted D s) (hu : u.Admitted D s) (stable : t.Stable) (stable' : u.Stable) :
    ∃ r, addTerms simplify t u = .ok r ∧ r.Admitted D s ∧
      r.value s = t.value s + u.value s := by
  unfold addTerms
  by_cases noRight : u.isZero = true
  · rw [if_pos noRight]
    have cloned := clone_replaces ht
    refine ⟨_, rfl, cloned.admitted, ?_⟩
    rw [Term.value_of_isZero hu noRight, add_zero]
    exact cloned.value
  rw [if_neg noRight]
  by_cases noLeft : t.isZero = true
  · rw [if_pos noLeft]
    have cloned := clone_replaces hu
    refine ⟨_, rfl, cloned.admitted, ?_⟩
    rw [Term.value_of_isZero ht noLeft, zero_add]
    exact cloned.value
  rw [if_neg noLeft]
  obtain ⟨⟨left, leftValue⟩, ⟨right, rightValue⟩, divisors⟩ :=
    common_spec ht hu stable stable'
  dsimp only at left leftValue right rightValue divisors ⊢
  rw [← leftValue, ← rightValue]
  generalize t.overShared _ = v at left divisors ⊢
  generalize u.overShared _ = w at right divisors ⊢
  by_cases like : v.isLike w = true
  · obtain ⟨r, combined, admitted, value⟩ := Term.combine_spec left right like
    rw [if_pos like, combined]
    exact ⟨.product r, rfl, admitted, value⟩
  rw [if_neg like]
  obtain ⟨first, firstValue⟩ := Term.uncovered_spec left
  obtain ⟨second, secondValue⟩ := Term.uncovered_spec right
  have both := List.forall_mem_cons.2 ⟨first, List.forall_mem_singleton.2 second⟩
  obtain ⟨flat, flatValue⟩ := flattenedTerms_spec both
  obtain ⟨above, simplified, terms, value⟩ := inner _ flat
  rw [simplified]
  simp only [bind, Except.bind, pure, Except.pure]
  have total : termsValue s above =
      (v.value s + w.value s) * factorsValue s v.realDivisors := by
    rw [value, flatValue, termsValue_cons, termsValue_cons, termsValue_nil, add_zero, firstValue,
      secondValue, divisors]
    ring
  by_cases bare : v.realDivisors.isEmpty = true
  · rw [if_pos bare]
    refine ⟨_, rfl, admitted_sum.2 terms, ?_⟩
    rw [value_sum, total, List.isEmpty_iff.1 bare, factorsValue_nil, mul_one]
  · rw [if_neg bare]
    have nonzero : factorsValue s v.realDivisors ≠ 0 :=
      factorsValue_ne_zero fun f hf => left.nonzero f (Term.mem_divisors hf)
    obtain ⟨factor, factorValue⟩ := Factor.unit_spec (admitted_sum.2 terms)
    obtain ⟨built, builtValue⟩ := Term.normal_spec (n := 1) (one_ne_zero (α := α))
      (List.forall_mem_singleton.2 factor)
      (fun f hf => left.divisors f (Term.mem_divisors hf))
      fun f hf => left.nonzero f (Term.mem_divisors hf)
    refine ⟨_, rfl, built, ?_⟩
    rw [value_product, builtValue, factorsValue_cons, factorsValue_nil, factorValue, value_sum, total]
    field_simp

theorem addends_spec {n : Node α} (h : n.Admitted D s) :
    (∀ t ∈ addends n, t.Admitted D s) ∧ termsValue s (addends n) = n.value s := by
  unfold addends
  split
  · exact ⟨admitted_sum.1 h, (value_sum _).symm⟩
  · obtain ⟨wrapped, value⟩ := Term.wrap_spec h
    refine ⟨List.forall_mem_singleton.2 wrapped, ?_⟩
    rw [termsValue_cons, termsValue_nil, add_zero, value]

/-- The sum of the terms of two sums. -/
theorem addedTerms_spec (inner : Summing D s simplify) {ts us : List (Term α (Node α))}
    (ht : ∀ t ∈ ts, t.Admitted D s) (hu : ∀ u ∈ us, u.Admitted D s) :
    ∃ ks, simplify (flattenedTerms (ts ++ us)) = .ok ks ∧ (Node.sum ks).Admitted D s ∧
      (Node.sum ks).value s = termsValue s ts + termsValue s us := by
  obtain ⟨flat, flatValue⟩ := flattenedTerms_spec (List.forall_mem_append.2 ⟨ht, hu⟩)
  obtain ⟨ks, simplified, terms, value⟩ := inner _ flat
  refine ⟨ks, simplified, admitted_sum.2 terms, ?_⟩
  rw [value_sum, value, flatValue, termsValue_append]

/-- Unless it is a sum, the expression is a term of stable factors. -/
def Addable (n : Node α) : Prop := (∀ ts, n ≠ .sum ts) → (Term.wrap n).Stable

theorem Admitted.addable {n : Node α} (h : n.Admitted .stable s) : n.Addable :=
  fun _ => (Term.wrap_spec h).1.stable

/-- The sum of two expressions. -/
theorem addWith_spec (inner : Summing D s simplify) {m n : Node α} (hm : m.Admitted D s)
    (hn : n.Admitted D s) (first : m.Addable) (second : n.Addable) :
    ∃ r, addWith simplify m n = .ok r ∧ r.Admitted D s ∧
      r.value s = m.value s + n.value s ∧
        (m.isNumber = true → n.isNumber = true → r.isNumber = true) := by
  unfold addWith
  split
  · rename_i x y
    refine ⟨ofValue (x + y), rfl, .number _, ?_, fun _ _ => rfl⟩
    rw [FieldScalar.ofValue_eq, Node.value, Node.value, Node.value]
  · rename_i ts
    obtain ⟨terms, value⟩ := addends_spec hn
    obtain ⟨ks, simplified, admitted, sum⟩ := addedTerms_spec inner (admitted_sum.1 hm) terms
    refine ⟨.sum ks, ?_, admitted, ?_, fun number => by cases number⟩
    · rw [simplified]
      rfl
    · rw [sum, value, value_sum]
  · rename_i us _
    obtain ⟨flat, flatValue⟩ := flattened_spec (List.forall_mem_singleton.2 hm)
    obtain ⟨ks, simplified, admitted, sum⟩ := addedTerms_spec inner flat (admitted_sum.1 hn)
    refine ⟨.sum ks, ?_, admitted, ?_, fun _ number => by cases number⟩
    · rw [simplified]
      rfl
    · rw [sum, flatValue, value_sum, List.map_singleton, List.sum_singleton]
  · rename_i sum sum' numbers
    obtain ⟨left, leftValue⟩ := Term.wrap_spec hm
    obtain ⟨right, rightValue⟩ := Term.wrap_spec hn
    obtain ⟨r, added, admitted, value⟩ := addTerms_spec inner left right (first sum) (second sum')
    refine ⟨r, added, admitted, ?_, ?_⟩
    · rw [value, leftValue, rightValue]
    · intro first second
      cases m with
      | number x =>
        cases n with
        | number y => exact absurd rfl (numbers x y rfl)
        | _ => cases second
      | _ => cases first

end Node

/-! ### The levels of exponents -/

/-- Rules that are right simplify sums rightly. -/
theorem ExponentRules.Sound.summing {rules : ExponentRules α} (sound : rules.Sound D s) :
    Node.Summing D s (Node.simplifySumWith rules) := by
  intro ts ht
  apply Node.simplifySum_spec _ ht
  intro t admitted
  exact Node.simplifyTerm_spec sound (Node.simplifyAt_replacing sound _) admitted

/-- Rules at any level add and tidy expressions rightly. -/
theorem ExponentRules.sound_stable (level : Nat) :
    (Node.exponentRules level : ExponentRules α).Sound .stable s := by
  induction level with
  | zero =>
    constructor
    · intro m n hm hn _ _
      exact Node.addWith_spec (fun ts ht => ⟨ts, rfl, ht, rfl⟩) hm hn hm.addable hn.addable
    · intro e he _
      exact ⟨e.reduce, rfl, Node.reduce_replaces he⟩
  | succ level ih =>
    constructor
    · intro m n hm hn _ _
      exact Node.addWith_spec ih.summing hm hn hm.addable hn.addable
    · intro e he _
      obtain ⟨r, simplified, replaced⟩ := Node.simplifyAt_replacing ih e.depth e he
      refine ⟨r.reduce, ?_, replaced.trans (Node.reduce_replaces replaced.admitted)⟩
      rw [Node.exponentRules]
      dsimp only
      rw [simplified]
      rfl

/-- Rules at any level are right under either discipline. -/
theorem ExponentRules.sound (level : Nat) :
    (Node.exponentRules level : ExponentRules α).Sound D s := by
  cases D with
  | plain => exact sound_plain level
  | stable => exact sound_stable level

namespace Node

/-- The terms of any sum are simplified and merged. -/
theorem simplifyTerms_spec {ts : List (Term α (Node α))} (ht : ∀ t ∈ ts, t.Admitted D s) :
    ∃ us, simplifyTerms ts = .ok us ∧ (∀ u ∈ us, u.Admitted D s) ∧
      termsValue s us = termsValue s ts :=
  (ExponentRules.sound (Node.sum ts).level).summing ts ht

/-- Adding succeeds, and the result stands for the sum. -/
theorem addable_spec {m n : Node α} (hm : m.Admitted D s) (hn : n.Admitted D s)
    (first : m.Addable) (second : n.Addable) :
    ∃ r, m.add n = .ok r ∧ r.Admitted D s ∧ r.value s = m.value s + n.value s := by
  have summing : Summing D s (simplifyTerms (α := α)) := fun ts ht => simplifyTerms_spec ht
  obtain ⟨r, added, admitted, value, -⟩ := addWith_spec summing hm hn first second
  exact ⟨r, added, admitted, value⟩

theorem add_spec {m n : Node α} (hm : m.Admitted .stable s) (hn : n.Admitted .stable s) :
    ∃ r, m.add n = .ok r ∧ r.Admitted .stable s ∧ r.value s = m.value s + n.value s :=
  addable_spec hm hn hm.addable hn.addable

end Node

end SymbolicAlgebra
