/-
  Expanding keeps the value
  =========================
  Multiplying out is multiplying again and again: the whole power of a sum is a
  product of sums, and so is a term that holds sums. Every step is a product of nodes,
  which has the value it should, so the expanded term has the value of the unexpanded
  one as long as the coefficient and the divisors are taken along
  (**`Node.expandedTerm_spec`**).

  **`Node.evaluate_expand`**: an expression whose exponents are plain numbers and what
  it expands to evaluate to one number, also after simplifying and reducing.
-/
import SymbolicAlgebra.Proofs.Value.Arithmetic
import SymbolicAlgebra.Proofs.Value.Rational
import SymbolicAlgebra.Node.Expand

namespace SymbolicAlgebra.Node

variable {α : Type} [FieldScalar α] [ExactScalar α] {D : Discipline} {s : Scope α}

/-! ### Powers of sums -/

/-- Multiplying several times by one node. -/
theorem multiplyRepeatedly_spec {m n : Node α} (hm : m.Admitted D s) (hn : n.Admitted D s)
    (count : Nat) : ∃ r, m.multiplyRepeatedly n count = .ok r ∧ r.Admitted D s ∧
      r.value s = m.value s * n.value s ^ count := by
  induction count generalizing m with
  | zero => exact ⟨m, rfl, hm, by rw [pow_zero, mul_one]⟩
  | succ count ih =>
    obtain ⟨k, multiplied, product, value⟩ := multiply_spec hm hn
    obtain ⟨r, repeated, admitted, total⟩ := ih product
    refine ⟨r, ?_, admitted, ?_⟩
    · rw [multiplyRepeatedly, multiplied]
      exact repeated
    · rw [total, value, pow_succ']
      ring

omit [ExactScalar α] in
/-- A positive power is the base times the remaining power. -/
theorem zpow_positive {x : α} {z : ℤ} (positive : 0 < z) : x ^ z = x * x ^ (z - 1).toNat := by
  obtain ⟨count, rfl⟩ := Int.eq_succ_of_zero_lt positive
  rw [add_sub_cancel_right, Int.toNat_natCast, ← Nat.cast_succ, zpow_natCast, pow_succ']

/-- A power with its sum multiplied out. -/
theorem expandedPower_spec {base exponent : Node α} (h : Factor.Admitted D s ⟨base, exponent⟩) :
    ∃ f, expandedPower base exponent = .ok f ∧ f.Admitted D s ∧
      f.value s = Factor.value s ⟨base, exponent⟩ := by
  unfold expandedPower
  split
  · rename_i ts x
    have whole := h.defined.whole
    rw [Node.value] at whole
    by_cases positive : (Scalar.isWhole x && Scalar.lt 0 x) = true
    · rw [if_pos positive]
      simp only [Bool.and_eq_true] at positive
      have order : 0 < Scalar.toInt x := by
        have compared := positive.2
        rw [ExactScalar.lt_eq ExactScalar.isWhole_zero whole, ExactScalar.toInt_zero] at compared
        simpa using compared
      obtain ⟨r, repeated, product, value⟩ :=
        multiplyRepeatedly_spec h.base h.base (Scalar.toInt x - 1).toNat
      obtain ⟨admitted, unit⟩ := Factor.unit_spec product
      refine ⟨_, by rw [repeated]; rfl, admitted, ?_⟩
      rw [unit, value, Factor.value, Factor.order, Node.value, zpow_positive order]
    · rw [if_neg positive]
      exact ⟨_, rfl, h, rfl⟩
  · exact ⟨_, rfl, h, rfl⟩

/-! ### Products of sums -/

/-- The sums among some factors and the other factors multiply to the product of all. -/
theorem splitSums_spec {fs : List (Factor (Node α))} (h : ∀ f ∈ fs, f.Admitted D s) :
    (∀ ts ∈ (splitSums fs).1, (Node.sum ts).Admitted D s) ∧
      (∀ f ∈ (splitSums fs).2, f.Admitted D s) ∧
        factorsValue s fs =
          factorsValue s (splitSums fs).2 * ((splitSums fs).1.map (termsValue s)).prod := by
  induction fs with
  | nil => exact ⟨List.forall_mem_nil _, List.forall_mem_nil _, by simp [splitSums]⟩
  | cons f fs ih =>
    obtain ⟨first, rest⟩ := List.forall_mem_cons.1 h
    obtain ⟨sums, others, product⟩ := ih rest
    rw [splitSums]
    generalize splitSums fs = parts at sums others product
    obtain ⟨groups, left⟩ := parts
    dsimp only at sums others product ⊢
    have kept : (∀ g ∈ f :: left, g.Admitted D s) ∧ factorsValue s (f :: fs) =
        factorsValue s (f :: left) * (groups.map (termsValue s)).prod := by
      refine ⟨List.forall_mem_cons.2 ⟨first, others⟩, ?_⟩
      rw [factorsValue_cons, factorsValue_cons, product, mul_assoc]
    split
    · rename_i ts shown
      split
      · rename_i unit
        have base := first.base
        rw [shown] at base
        refine ⟨List.forall_mem_cons.2 ⟨base, sums⟩, others, ?_⟩
        rw [factorsValue_cons, product, Term.value_of_isUnit unit, shown, value_sum, List.map_cons,
          List.prod_cons]
        ring
      · exact ⟨sums, kept⟩
    · exact ⟨sums, kept⟩

/-- Multiplying a node by one sum after the other. -/
theorem multiplySums_spec {sums : List (List (Term α (Node α)))}
    (h : ∀ ts ∈ sums, (Node.sum ts).Admitted D s) {m : Node α} (hm : m.Admitted D s) :
    ∃ r, sums.foldlM (fun (n : Node α) ts => n.multiply (.sum ts)) m = .ok r ∧ r.Admitted D s ∧
      r.value s = m.value s * (sums.map (termsValue s)).prod := by
  induction sums generalizing m with
  | nil => exact ⟨m, rfl, hm, by rw [List.map_nil, List.prod_nil, mul_one]⟩
  | cons ts sums ih =>
    obtain ⟨first, rest⟩ := List.forall_mem_cons.1 h
    obtain ⟨k, multiplied, product, value⟩ := multiply_spec hm first
    obtain ⟨r, folded, admitted, total⟩ := ih rest product
    refine ⟨r, ?_, admitted, ?_⟩
    · rw [List.foldlM_cons, multiplied]
      exact folded
    · rw [total, value, value_sum, List.map_cons, List.prod_cons, mul_assoc]

/-- A term with its sums multiplied out. -/
theorem expandedTerm_spec {n d : α} {fs gs : List (Factor (Node α))} (denominator : d ≠ 0)
    (above : ∀ f ∈ fs, f.Admitted D s) (below : ∀ g ∈ gs, g.Admitted D s)
    (nonzero : ∀ g ∈ gs, g.value s ≠ 0) :
    ∃ r, expandedTerm n d fs gs = .ok r ∧ r.Admitted D s ∧
      r.value s = n * factorsValue s fs / (d * factorsValue s gs) := by
  obtain ⟨sums, others, product⟩ := splitSums_spec above
  rw [product]
  unfold expandedTerm
  generalize splitSums fs = parts at sums others
  obtain ⟨groups, left⟩ := parts
  cases groups with
  | nil =>
    obtain ⟨admitted, value⟩ := Term.normal_spec (n := n) denominator others below nonzero
    refine ⟨_, rfl, admitted, ?_⟩
    rw [value_product, value, List.map_nil, List.prod_nil, mul_one]
  | cons ts groups =>
    obtain ⟨single, singleValue⟩ := Term.normal_spec (n := n) (one_ne_zero (α := α)) others
      (List.forall_mem_nil _) (List.forall_mem_nil _)
    obtain ⟨flat, flatValue⟩ := flattenedTerms_spec (List.forall_mem_singleton.2 single)
    obtain ⟨r, multiplied, admitted, value⟩ := multiplySums_spec sums (admitted_sum.2 flat)
    have total : r.value s =
        n * (factorsValue s left * ((ts :: groups).map (termsValue s)).prod) := by
      rw [value, value_sum, flatValue, termsValue_cons, termsValue_nil, singleValue,
        factorsValue_nil]
      ring
    dsimp only
    rw [multiplied, ← total]
    by_cases bare : (d == 1 && gs.isEmpty) = true
    · simp only [Bool.and_eq_true, beq_iff_eq, List.isEmpty_iff] at bare
      obtain ⟨rfl, rfl⟩ := bare
      refine ⟨r, ?_, admitted, ?_⟩
      · simp [bind, Except.bind, pure, Except.pure]
      · rw [factorsValue_nil, mul_one, div_one]
    · obtain ⟨factor, unit⟩ := Factor.unit_spec admitted
      obtain ⟨built, builtValue⟩ := Term.normal_spec (n := 1) denominator
        (List.forall_mem_singleton.2 factor) below nonzero
      refine ⟨_, ?_, built, ?_⟩
      · simp only [bind, Except.bind, pure, Except.pure]
        rw [if_neg bare]
      · rw [value_product, builtValue, factorsValue_cons, factorsValue_nil, unit, one_mul, mul_one]

/-! ### Trees -/

/-- A factor with expanded parts. -/
theorem expandFactor_spec {f : Factor (Node α)} (h : f.Admitted D s)
    (base : ∃ m, f.base.expand = .ok m ∧ m.Replaces D s f.base)
    (exponent : ∃ m, f.exponent.expand = .ok m ∧ m.Replaces D s f.exponent) :
    ∃ g, f.expand = .ok g ∧ g.Admitted D s ∧ g.value s = f.value s := by
  obtain ⟨b, expandedBase, hb⟩ := base
  obtain ⟨e, expandedExponent, he⟩ := exponent
  obtain ⟨power, same, -⟩ := Factor.replaced h hb he
  obtain ⟨g, result, admitted, value⟩ := expandedPower_spec power
  refine ⟨g, ?_, admitted, value.trans same⟩
  rw [Factor.expand, expandedBase, expandedExponent]
  exact result

/-- The real factors expanded, given that their powers are replaced. -/
theorem expandFactors_spec {fs : List (Factor (Node α))} (h : ∀ f ∈ fs, f.Admitted D s)
    (each : ∀ f ∈ fs, ∃ m, (Node.power f).expand = .ok m ∧ m.Replaces D s (.power f)) :
    ∃ gs, expandFactors fs = .ok gs ∧ (∀ g ∈ gs, g.Admitted D s) ∧
      factorsValue s gs = factorsValue s fs := by
  have expanded : ∀ f ∈ realFactors fs,
      ∃ g, f.expand = .ok g ∧ (g.Admitted D s ∧ g.value s = f.value s) := by
    intro f hf
    obtain ⟨m, result, replaced⟩ := each f (List.mem_filter.1 hf).1
    rw [expand_power] at result
    obtain ⟨g, found, rest⟩ := bind_eq_ok.1 result
    cases rest
    have value := replaced.value
    rw [value_power, value_power] at value
    exact ⟨g, found, replaced.admitted, value⟩
  obtain ⟨gs, results, related⟩ := mapM_exists expanded
  rw [← factorsValue_real h, expandFactors_eq]
  exact ⟨gs, results, factorsValue_related related⟩

omit [ExactScalar α] in
/-- The terms of a sum expanded, given that they are replaced. -/
theorem expandTerms_spec {ts : List (Term α (Node α))}
    (each : ∀ t ∈ ts, ∃ m, (Node.product t).expand = .ok m ∧ m.Replaces D s (.product t)) :
    ∃ ns, expandTerms ts = .ok ns ∧ (∀ n ∈ ns, n.Admitted D s) ∧
      (ns.map (Node.value s)).sum = termsValue s ts := by
  obtain ⟨ns, results, related⟩ := mapM_exists each
  rw [expandTerms_eq]
  refine ⟨ns, results, ?_⟩
  clear results each
  induction related with
  | nil => exact ⟨List.forall_mem_nil _, rfl⟩
  | cons head tail ih =>
    refine ⟨List.forall_mem_cons.2 ⟨head.admitted, ih.1⟩, ?_⟩
    rw [List.map_cons, List.sum_cons, termsValue_cons, head.value, ih.2]
    rfl

/-- Expanding replaces every expression. -/
theorem expand_replacing : Replacing D s (expand (α := α)) := by
  intro n h
  induction h with
  | number x => exact ⟨_, rfl, .refl (.number x)⟩
  | constant c negative collapsed => exact ⟨_, rfl, .refl (.constant c negative collapsed)⟩
  | var v negative x bound => exact ⟨_, rfl, .refl (.var v negative x bound)⟩
  | power f base exponent defined base_ih exponent_ih =>
    obtain ⟨g, result, admitted, value⟩ :=
      expandFactor_spec (.power f base exponent defined) base_ih exponent_ih
    refine ⟨.power g, ?_, admitted, ?_, fun leaf => by cases leaf⟩
    · rw [expand_power, result]
      rfl
    · rw [value_power, value_power, value]
  | product t denominator factors divisors nonzero above below factors_ih divisors_ih =>
    obtain ⟨fs, expandedAbove, tops, product⟩ := expandFactors_spec factors factors_ih
    obtain ⟨gs, expandedBelow, bottoms, divisor⟩ := expandFactors_spec divisors divisors_ih
    have bounded : ∀ g ∈ gs, g.value s ≠ 0 := by
      intro g hg zero
      apply factorsValue_ne_zero nonzero
      rw [← divisor]
      exact factorsValue_eq_zero.2 ⟨g, hg, zero⟩
    obtain ⟨r, result, admitted, value⟩ :=
      expandedTerm_spec (n := t.numerator) denominator tops bottoms bounded
    refine ⟨r, ?_, admitted, ?_, fun leaf => by cases leaf⟩
    · rw [expand_product, expandedAbove, expandedBelow]
      exact result
    · rw [value, product, divisor, ← Term.value_eq]
      rfl
  | sum ts terms terms_ih =>
    obtain ⟨ns, expanded, members, total⟩ := expandTerms_spec terms_ih
    obtain ⟨flat, flatValue⟩ := flattened_spec members
    obtain ⟨us, simplified, admitted, value⟩ := simplifyTerms_spec flat
    refine ⟨.sum us, ?_, admitted_sum.2 admitted, ?_, fun leaf => by cases leaf⟩
    · rw [expand, expanded]
      simp only [bind, Except.bind, pure, Except.pure, simplified]
    · rw [value_sum, value_sum, value, flatValue, total]
  | unary f x argument ih =>
    obtain ⟨y, result, part⟩ := ih
    refine ⟨.unary f y, ?_, .unary f y part.admitted, ?_, fun leaf => by cases leaf⟩
    · rw [expand, result]
      rfl
    · rw [Node.value, Node.value, part.value]
  | binary f x y left right left_ih right_ih =>
    obtain ⟨z, result, first⟩ := left_ih
    obtain ⟨w, result', second⟩ := right_ih
    refine ⟨.binary f z w, ?_, .binary f z w first.admitted second.admitted, ?_, fun leaf => by cases leaf⟩
    · rw [expand, result, result']
      rfl
    · rw [Node.value, Node.value, first.value, second.value]

/-- Expanding succeeds, and neither it nor simplifying and reducing what it gives changes what
an expression evaluates to. -/
theorem evaluate_expand {n : Node α} (defined : n.Admitted .plain s) :
    ∃ x m k, n.evaluate (some s) = .ok (.number x) ∧ n.expand = .ok m ∧
      m.evaluate (some s) = .ok (.number x) ∧ m.simplify = .ok k ∧
        k.reduce.evaluate (some s) = .ok (.number x) := by
  obtain ⟨m, expanded, replaced⟩ := expand_replacing n defined
  obtain ⟨k, simplified, next⟩ :=
    simplifyAt_replacing (ExponentRules.sound_plain m.level) m.depth m replaced.admitted
  have reduced := reduce_replaces next.admitted
  refine ⟨n.value s, m, k, evaluate_eq defined, expanded, ?_, simplified, ?_⟩
  · rw [evaluate_eq replaced.admitted, replaced.value]
  · rw [evaluate_eq reduced.admitted, reduced.value, next.value, replaced.value]

/-- `3 / 2 * (x + 1) ^ 2 * (x - 2) / x ^ 3` at `x = 5`. -/
theorem evaluate_expand_rational :
    let x : Node ℚ := .var ⟨'x', 0⟩ false
    let binomial (c : ℚ) : Node ℚ := .sum [⟨1, 1, [⟨x, .number 1⟩], []⟩, ⟨c, 1, [], []⟩]
    let n : Node ℚ := .product
      ⟨3, 2, [⟨binomial 1, .number 2⟩, ⟨binomial (-2), .number 1⟩], [⟨x, .number 3⟩]⟩
    let s : Scope ℚ := { values := [("x", 5)] }
    n.Admitted .plain s ∧ ∃ y m k, n.evaluate (some s) = .ok (.number y) ∧ n.expand = .ok m ∧
      m.evaluate (some s) = .ok (.number y) ∧ m.simplify = .ok k ∧
        k.reduce.evaluate (some s) = .ok (.number y) := by
  intro x binomial n s
  have bound : s.get (Variable.name ⟨'x', 0⟩) = .ok (some 5) := by decide +kernel
  have var : x.Admitted .plain s := .var _ _ 5 bound
  have power : ∀ (b : Node ℚ) (z : ℚ), b.Admitted .plain s → Scalar.isWhole z = true →
      0 ≤ Scalar.toInt z → Factor.Admitted .plain s ⟨b, .number z⟩ := by
    intro b z base whole positive
    refine .power _ base (.number z) ⟨?_, fun _ => ?_, rfl, trivial⟩
    · rwa [Node.value]
    · rwa [Factor.order, Node.value]
  have sum : ∀ c : ℚ, (binomial c).Admitted .plain s := by
    intro c
    refine admitted_sum.2 (List.forall_mem_cons.2 ⟨?_, List.forall_mem_singleton.2 ?_⟩)
    · refine Term.admitted_iff.2 ⟨by decide, ?_, List.forall_mem_nil _, List.forall_mem_nil _,
        fun _ _ => trivial, fun _ _ => trivial⟩
      exact List.forall_mem_singleton.2 (power x 1 var (by decide +kernel) (by decide +kernel))
    · exact Term.admitted_iff.2 ⟨one_ne_zero, List.forall_mem_nil _, List.forall_mem_nil _,
        List.forall_mem_nil _, fun _ _ => trivial, fun _ _ => trivial⟩
  have defined : n.Admitted .plain s := by
    refine Term.admitted_iff.2 ⟨by decide, List.forall_mem_cons.2 ⟨?_, ?_⟩, ?_, ?_,
      fun _ _ => trivial, fun _ _ => trivial⟩
    · exact power _ 2 (sum 1) (by decide +kernel) (by decide +kernel)
    · exact List.forall_mem_singleton.2
        (power _ 1 (sum (-2)) (by decide +kernel) (by decide +kernel))
    · exact List.forall_mem_singleton.2 (power x 3 var (by decide +kernel) (by decide +kernel))
    · exact List.forall_mem_singleton.2 (by decide +kernel)
  exact ⟨defined, evaluate_expand defined⟩

end SymbolicAlgebra.Node
