/-
  Terms and sums of any nodes
  ===========================
  Every node is a term with its value, and the terms of a flattened sum add up to
  the nodes it was made of: **`Node.flattened_spec`**. Flattening drops terms that
  are certainly zero and changes the order of the others, which a sum does not see.
-/
import SymbolicAlgebra.Proofs.Value.Product

namespace SymbolicAlgebra

variable {α : Type} [FieldScalar α] [ExactScalar α] {D : Discipline} {s : Scope α}

/-! ### Nodes as factors and terms -/

/-- Any node to the power of one. -/
theorem Factor.unit_spec {n : Node α} (h : n.Admitted D s) :
    Factor.Admitted D s ⟨n, .number 1⟩ ∧ Factor.value s ⟨n, .number 1⟩ = n.value s := by
  have order : Factor.order s ⟨n, .number 1⟩ = 1 := by
    rw [Factor.order, Node.value, ExactScalar.toInt_one]
  constructor
  · refine Factor.admitted_iff.2 ⟨h, .number 1, ?_, ?_, ?_, ?_⟩
    · rw [Node.value]
      exact ExactScalar.isWhole_one
    · exact fun _ => by omega
    · cases D with
      | plain => rfl
      | stable => trivial
    · cases D with
      | plain => trivial
      | stable => exact ⟨.inr (.inl (by omega)), fun _ _ => rfl⟩
  · rw [Factor.value, order, zpow_one]

theorem Node.asFactor_spec {n : Node α} (h : n.Admitted D s) :
    n.asFactor.Admitted D s ∧ n.asFactor.value s = n.value s := by
  unfold Node.asFactor
  split
  · exact ⟨h, (Node.value_power s _).symm⟩
  · exact Factor.unit_spec h

namespace Term

theorem asFactors_spec {ns : List (Node α)} (h : ∀ n ∈ ns, n.Admitted D s) :
    (∀ f ∈ ns.map Node.asFactor, f.Admitted D s) ∧
      Node.factorsValue s (ns.map Node.asFactor) = (ns.map (Node.value s)).prod := by
  constructor
  · intro f hf
    obtain ⟨n, hn, rfl⟩ := List.mem_map.1 hf
    exact (Node.asFactor_spec (h n hn)).1
  · rw [Node.factorsValue_eq, List.map_map]
    congr 1
    exact List.map_congr_left fun n hn => (Node.asFactor_spec (h n hn)).2

/-- The term of any nodes above and below the bar. -/
theorem ofNodes_spec {n d : α} {above below : List (Node α)} (denominator : d ≠ 0)
    (ha : ∀ n ∈ above, n.Admitted D s) (hb : ∀ n ∈ below, n.Admitted D s)
    (nonzero : ∀ n ∈ below, n.value s ≠ 0) :
    (ofNodes n d above below).Admitted D s ∧ (ofNodes n d above below).value s =
      n * (above.map (Node.value s)).prod / (d * (below.map (Node.value s)).prod) := by
  obtain ⟨factors, product⟩ := asFactors_spec ha
  obtain ⟨divisors, divisor⟩ := asFactors_spec hb
  rw [← product, ← divisor]
  refine normal_spec denominator factors divisors fun f hf => ?_
  obtain ⟨m, hm, rfl⟩ := List.mem_map.1 hf
  rw [(Node.asFactor_spec (hb m hm)).2]
  exact nonzero m hm

theorem ofValue_spec (x : α) : (ofValue x).Admitted D s ∧ (ofValue x).value s = x := by
  have none : ∀ f ∈ ([] : List (Factor (Node α))), f.Admitted D s ∧ f.value s ≠ 0 := by
    intro f hf
    cases hf
  have built := normal_spec (n := x) (one_ne_zero (α := α)) (fun f hf => (none f hf).1)
    (fun f hf => (none f hf).1) fun f hf => (none f hf).2
  rw [Node.factorsValue_nil, mul_one, mul_one, div_one] at built
  exact built

/-- Any node as a term. -/
theorem wrap_spec {n : Node α} (h : n.Admitted D s) :
    (wrap n).Admitted D s ∧ (wrap n).value s = n.value s := by
  unfold wrap
  split
  · exact ⟨h, rfl⟩
  · rename_i t
    refine ⟨Node.admitted_sum.1 h t List.mem_cons_self, ?_⟩
    rw [Node.value_sum, Node.termsValue_cons, Node.termsValue_nil, add_zero]
  · have above : ∀ m ∈ [n], m.Admitted D s := by
      intro m hm
      obtain rfl := List.mem_singleton.1 hm
      exact h
    have none : ∀ m ∈ ([] : List (Node α)), m.Admitted D s ∧ m.value s ≠ 0 := by
      intro m hm
      cases hm
    have built := ofNodes_spec (n := 1) (one_ne_zero (α := α)) above (fun m hm => (none m hm).1)
      fun m hm => (none m hm).2
    simp only [List.map_cons, List.map_nil, List.prod_cons, List.prod_nil, mul_one, one_mul,
      div_one] at built
    exact built

/-- The product of two terms. -/
theorem times_spec {t u : Term α (Node α)} (ht : t.Admitted D s) (hu : u.Admitted D s) :
    (t.times u).Admitted D s ∧ (t.times u).value s = t.value s * u.value s := by
  have above : ∀ f ∈ t.realFactors ++ u.realFactors, f.Admitted D s := by
    intro f hf
    rcases List.mem_append.1 hf with hf | hf
    · exact ht.factors f (mem_factors hf)
    · exact hu.factors f (mem_factors hf)
  have below : ∀ f ∈ t.realDivisors ++ u.realDivisors, f.Admitted D s ∧ f.value s ≠ 0 := by
    intro f hf
    rcases List.mem_append.1 hf with hf | hf
    · exact ⟨ht.divisors f (mem_divisors hf), ht.nonzero f (mem_divisors hf)⟩
    · exact ⟨hu.divisors f (mem_divisors hf), hu.nonzero f (mem_divisors hf)⟩
  obtain ⟨admitted, value⟩ := normal_spec (n := t.numerator * u.numerator)
    (mul_ne_zero ht.denominator hu.denominator) above (fun f hf => (below f hf).1)
    fun f hf => (below f hf).2
  refine ⟨admitted, ?_⟩
  rw [times, value, value_real ht, value_real hu, Node.factorsValue_append,
    Node.factorsValue_append]
  ring

/-- A term that is nothing but a sum in brackets. -/
theorem soleSum?_spec {t : Term α (Node α)} (h : t.Admitted D s) {ts : List (Term α (Node α))}
    (sole : t.soleSum? = some ts) :
    (∀ u ∈ ts, u.Admitted D s) ∧ Node.termsValue s ts = t.value s := by
  unfold soleSum? at sole
  split at sole
  · rename_i unit
    rw [Bool.and_eq_true, beq_iff_eq, beq_iff_eq] at unit
    split at sole
    · rename_i us exponent above below
      split at sole
      · rename_i one
        cases sole
        have member : ⟨.sum ts, exponent⟩ ∈ t.realFactors := by
          rw [above]
          exact List.mem_cons_self
        refine ⟨Node.admitted_sum.1 (h.factors _ (mem_factors member)).base, ?_⟩
        rw [value_real h, unit.1, unit.2, above, below, Node.factorsValue_cons,
          Node.factorsValue_nil, value_of_isUnit one, Node.value_sum]
        simp
      · cases sole
    · cases sole
  · cases sole

end Term

/-! ### Sums -/

namespace Node

/-- The terms that a summand contributes add up to it. -/
theorem summands_spec {n : Node α} (h : n.Admitted D s) :
    (∀ t ∈ summands n, t.Admitted D s) ∧ termsValue s (summands n) = n.value s := by
  unfold summands
  split
  · exact ⟨admitted_sum.1 h, (value_sum _).symm⟩
  · obtain ⟨wrapped, value⟩ := Term.wrap_spec h
    dsimp only
    cases sole : (Term.wrap n).soleSum? with
    | none =>
      refine ⟨fun t ht => List.mem_singleton.1 ht ▸ wrapped, ?_⟩
      rw [Option.getD_none, termsValue_cons, termsValue_nil, add_zero, value]
    | some ts =>
      obtain ⟨terms, same⟩ := Term.soleSum?_spec wrapped sole
      rw [Option.getD_some]
      exact ⟨terms, same.trans value⟩

theorem termsValue_filter {ts : List (Term α (Node α))} (h : ∀ t ∈ ts, t.Admitted D s) :
    termsValue s (ts.filter fun t => !t.isZero) = termsValue s ts := by
  induction ts with
  | nil => rfl
  | cons t ts ih =>
    have rest := ih fun u hu => h u (List.mem_cons_of_mem t hu)
    rw [List.filter_cons, termsValue_cons]
    by_cases zero : t.isZero = true
    · rw [if_neg (by simp [zero]), rest, Term.value_of_isZero (h t List.mem_cons_self) zero,
        zero_add]
    · rw [if_pos (by simp [zero]), termsValue_cons, rest]

/-- The terms of a flattened sum add up to the nodes it was made of. -/
theorem flattened_spec {nodes : List (Node α)} (h : ∀ n ∈ nodes, n.Admitted D s) :
    (∀ t ∈ flattened nodes, t.Admitted D s) ∧
      termsValue s (flattened nodes) = (nodes.map (Node.value s)).sum := by
  have spread : (∀ t ∈ nodes.flatMap summands, t.Admitted D s) ∧
      termsValue s (nodes.flatMap summands) = (nodes.map (Node.value s)).sum := by
    constructor
    · intro t ht
      obtain ⟨n, hn, ht⟩ := List.mem_flatMap.1 ht
      exact (summands_spec (h n hn)).1 t ht
    · induction nodes with
      | nil => rfl
      | cons n nodes ih =>
        rw [List.flatMap_cons, termsValue_append, List.map_cons, List.sum_cons,
          ih fun m hm => h m (List.mem_cons_of_mem n hm),
          (summands_spec (h n List.mem_cons_self)).2]
  obtain ⟨admitted, value⟩ := spread
  have kept := termsValue_filter admitted
  unfold flattened
  dsimp only
  generalize filtered : (nodes.flatMap summands).filter (fun t => !t.isZero) = terms at kept ⊢
  have members : ∀ t ∈ terms, t.Admitted D s := by
    intro t ht
    rw [← filtered] at ht
    exact admitted t (List.mem_filter.1 ht).1
  have order := StableSort.sorted_perm precedes (if terms.isEmpty then [Term.zero] else terms)
  rw [termsValue_perm order, ← value, ← kept]
  cases terms with
  | nil =>
    obtain ⟨zero, none⟩ := Term.ofValue_spec (D := D) (s := s) (0 : α)
    refine ⟨fun t ht => ?_, ?_⟩
    · exact List.mem_singleton.1 (order.mem_iff.1 ht) ▸ zero
    · show termsValue s [Term.zero] = termsValue s []
      rw [termsValue_cons, termsValue_nil, add_zero]
      exact none
  | cons t terms =>
    exact ⟨fun u hu => members u (order.mem_iff.1 hu), rfl⟩

/-- The terms of a flattened sum add up to the terms it was made of. -/
theorem flattenedTerms_spec {ts : List (Term α (Node α))} (h : ∀ t ∈ ts, t.Admitted D s) :
    (∀ t ∈ flattenedTerms ts, t.Admitted D s) ∧
      termsValue s (flattenedTerms ts) = termsValue s ts := by
  have nodes : ∀ n ∈ ts.map Node.product, n.Admitted D s := by
    intro n hn
    obtain ⟨t, ht, rfl⟩ := List.mem_map.1 hn
    exact h t ht
  obtain ⟨admitted, value⟩ := flattened_spec nodes
  refine ⟨admitted, ?_⟩
  rw [flattenedTerms, value, termsValue_eq, List.map_map]
  rfl

end Node

end SymbolicAlgebra
