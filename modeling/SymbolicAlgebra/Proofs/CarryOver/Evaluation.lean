/-
  Evaluating
  ==========
  Evaluating computes with the values of the parts, so what holds of them carries over
  to the result: **`Node.carry_evaluate`**. The result may have another property than
  the expression; then it is the leaves that lead from the one to the other.
-/
import SymbolicAlgebra.Node.Evaluate
import SymbolicAlgebra.Proofs.CarryOver.Arithmetic

namespace SymbolicAlgebra.Node

variable {α : Type} [Scalar α] {Q R : Place → Node α → Prop} [CarriesToSums Q] [CarriesToSums R]
  {p : Place}

omit [CarriesToSums R] in
theorem carry_evaluatedPower {base exponent : Node α} (hb : Q .inside base)
    (he : Place.Exponent Q p exponent) : Q p (evaluatedPower base exponent) := by
  have power := CarriesOver.mkPower hb he
  unfold evaluatedPower
  split
  · split
    · exact CarriesOver.number 1
    · split
      · exact CarriesOver.anywhere hb
      · split
        · exact carry_ofValue _
        · exact power
  · exact power

omit [CarriesToSums R] in
theorem built_evaluatedFraction {above below : Node α} (ha : Built Q above)
    (hb : Q .inside below) : Built Q (evaluatedFraction above below) := by
  have fraction : Built Q (.product (Term.fraction above below)) :=
    .term (List.forall_mem_singleton.2 (carry_asFactor ha.inside))
      (List.forall_mem_singleton.2 (carry_asFactor hb)) 1 1
  unfold evaluatedFraction
  split
  · split
    · exact .other (carry_ofValue _) nofun
    · split
      · exact .other (carry_ofValue _) nofun
      · split
        · exact ha
        · exact fraction
  · exact fraction

omit [CarriesToSums Q] in
theorem built_evaluateProduct {scope : Option (Scope α)} {fs : List (Factor (Node α))}
    (each : ∀ f ∈ realFactors fs, Yields (R .inside) ((Node.power f).evaluate scope)) (x : α) :
    Yields (Built R) (evaluateProduct scope (ofValue x) fs) := by
  rw [evaluateProduct_foldlM]
  refine .foldlM (fun f hf m hm => ?_) (.other (carry_ofValue x) nofun)
  exact (each f hf).bind fun k hk => built_multiply hm.inside hk

omit [CarriesToSums Q] in
/-- The value of a term is built from the values of its factors. -/
theorem built_evaluate_product {scope : Option (Scope α)} {t : Term α (Node α)}
    (above : ∀ f ∈ t.realFactors, Yields (R .inside) ((Node.power f).evaluate scope))
    (below : ∀ g ∈ t.realDivisors, Yields (R .inside) ((Node.power g).evaluate scope)) :
    Yields (Built R) ((Node.product t).evaluate scope) := by
  rw [evaluate_product]
  refine (built_evaluateProduct above _).bind fun m hm => ?_
  refine (built_evaluateProduct below _).bind fun k hk => ?_
  exact .ok (built_evaluatedFraction hm hk.inside)

/-- The property that the values of variables and constants have carries over to the value. -/
theorem carry_evaluate {scope : Option (Scope α)}
    (constants : ∀ {p c negative}, Q p (.constant c negative) →
      R p (evaluatedConstant scope c negative))
    (values : ∀ {p v negative}, Q p (.var v negative) →
      Yields (R p) (evaluatedVariable scope v negative))
    (exponents : ∀ {p e}, Place.Exponent Q p e → Yields (R .inside) (e.evaluate scope) →
      Yields (Place.Exponent R p) (e.evaluate scope))
    {n : Node α} (h : Q p n) : Yields (R p) (n.evaluate scope) := by
  induction n using Node.induction generalizing p with
  | number x =>
    rw [evaluate]
    exact .ok (CarriesOver.number x)
  | constant c negative =>
    rw [evaluate]
    exact .ok (constants h)
  | var v negative =>
    rw [evaluate]
    exact values h
  | power f base exponent =>
    obtain ⟨upper, lower⟩ := CarriesOver.power.1 h
    rw [evaluate_power]
    refine (base upper).bind fun b hb => ?_
    refine (exponents lower (exponent (CarriesOver.exponent lower))).bind fun e he => ?_
    exact .ok (carry_evaluatedPower hb he)
  | product t above below =>
    obtain ⟨upper, lower⟩ := CarriesOver.factors h
    refine (built_evaluate_product ?_ ?_).mono fun _ built => CarriesOver.anywhere built.inside
    · exact fun f hf => above f (List.mem_filter.1 hf).1 (upper f hf)
    · exact fun g hg => below g (List.mem_filter.1 hg).1 (lower g hg)
  | sum ts each =>
    have terms : ∀ t ∈ ts, Yields (R .inside) ((Node.product t).evaluate scope) :=
      fun t ht => each t ht (CarriesOver.terms h t ht)
    cases ts with
    | nil =>
      rw [evaluate]
      exact .ok (CarriesOver.number 0)
    | cons t ts =>
      obtain ⟨first, rest⟩ := List.forall_mem_cons.1 terms
      rw [evaluate_sum_cons]
      have total : Yields (R .inside)
          (do evaluateSum scope (← (Node.product t).evaluate scope) ts) := by
        refine first.bind fun m hm => ?_
        rw [evaluateSum_foldlM]
        refine .foldlM (fun u hu k hk => ?_) hm
        exact (rest u hu).bind fun v hv => carry_add hk hv
      exact total.mono fun _ => CarriesOver.anywhere
  | unary f x ih =>
    rw [evaluate]
    refine (ih (CarriesOver.unary.1 h)).bind fun y hy => ?_
    split
    · exact .ok (carry_ofValue _)
    · exact .ok (CarriesOver.unary.2 hy)
  | binary f x y left right =>
    obtain ⟨first, second⟩ := CarriesOver.binary.1 h
    rw [evaluate]
    refine (left first).bind fun v hv => (right second).bind fun w hw => ?_
    split
    · exact .ok (carry_ofValue _)
    · exact .ok (CarriesOver.binary.2 ⟨hv, hw⟩)

end SymbolicAlgebra.Node
