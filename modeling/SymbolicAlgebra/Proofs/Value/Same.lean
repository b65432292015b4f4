/-
  Equal expressions have equal values
  ===================================
  Equality of expressions ignores the order of factors and terms and the factors that
  are certainly one, none of which a value sees. It ignores the sign of a variable
  too, so equal expressions have one value when their signs agree:
  **`Node.value_of_same`**. The factors of a list are matched one by one, each against
  one that is taken out of the other list.
-/
import SymbolicAlgebra.Proofs.Value.Evaluation

namespace SymbolicAlgebra

variable {α : Type} [FieldScalar α] [ExactScalar α] {D : Discipline} {s : Scope α}

namespace Node

/-- Lists of factors that match have one product. -/
theorem factorsValue_of_same {fs gs : List (Factor (Node α))} (hf : ∀ f ∈ fs, f.Admitted D s)
    (hg : ∀ g ∈ gs, g.Admitted D s)
    (each : ∀ f ∈ fs, ∀ g : Factor (Node α), g.Admitted D s → f.same g = true →
      f.value s = g.value s)
    (same : sameFactors fs gs = true) : factorsValue s fs = factorsValue s gs := by
  induction fs generalizing gs with
  | nil =>
    rw [sameFactors, List.isEmpty_iff] at same
    rw [same]
  | cons f fs ih =>
    have rest : ∀ ks : List (Factor (Node α)), (∀ k ∈ ks, k.Admitted D s) →
        sameFactors fs ks = true → factorsValue s fs = factorsValue s ks :=
      fun ks hk => ih (fun g hg => hf g (List.mem_cons_of_mem f hg)) hk
        fun g hg => each g (List.mem_cons_of_mem f hg)
    obtain ⟨base, exponent⟩ := f
    rw [sameFactors] at same
    rw [factorsValue_cons]
    split at same
    · rename_i one
      rw [Factor.value_of_isOne (hf _ List.mem_cons_self) one, one_mul, rest gs hg same]
    · split at same
      · rename_i left found
        obtain ⟨g, pass, order⟩ := Tally.perm_of_takeOut? found
        have matched : Factor.same ⟨base, exponent⟩ g = true := by
          rw [Factor.same, Node.same]
          exact pass
        have members : ∀ k ∈ left, k.Admitted D s := fun k hk =>
          hg k (order.mem_iff.2 (List.mem_cons_of_mem g hk))
        rw [factorsValue_perm order, factorsValue_cons, rest left members same,
          each _ List.mem_cons_self g (hg g (order.mem_iff.2 List.mem_cons_self)) matched]
      · cases same

omit [ExactScalar α] in
/-- Lists of terms that match have one sum. -/
theorem termsValue_of_same {ts us : List (Term α (Node α))} (hu : ∀ u ∈ us, u.Admitted D s)
    (each : ∀ t ∈ ts, ∀ u : Term α (Node α), u.Admitted D s →
      (Node.product t).same (.product u) = true → t.value s = u.value s)
    (same : sameTerms ts us = true) : termsValue s ts = termsValue s us := by
  induction ts generalizing us with
  | nil =>
    rw [sameTerms, List.isEmpty_iff] at same
    rw [same]
  | cons t ts ih =>
    have rest : ∀ ks : List (Term α (Node α)), (∀ k ∈ ks, k.Admitted D s) →
        sameTerms ts ks = true → termsValue s ts = termsValue s ks :=
      fun ks hk => ih hk fun u hu => each u (List.mem_cons_of_mem t hu)
    obtain ⟨n, d, fs, gs⟩ := t
    rw [sameTerms] at same
    split at same
    · rename_i left found
      obtain ⟨u, pass, order⟩ := Tally.perm_of_takeOut? found
      have matched : (Node.product ⟨n, d, fs, gs⟩).same (.product u) = true := by
        rw [Node.same]
        exact pass
      have members : ∀ k ∈ left, k.Admitted D s := fun k hk =>
        hu k (order.mem_iff.2 (List.mem_cons_of_mem u hk))
      rw [termsValue_perm order, termsValue_cons, termsValue_cons, rest left members same,
        each _ List.mem_cons_self u (hu u (order.mem_iff.2 List.mem_cons_self)) matched]
    · cases same

/-- Equal expressions whose signs agree have one value. -/
theorem value_of_same {x y : Node α} (hx : x.Admitted D s) (hy : y.Admitted D s)
    (same : x.same y = true) (signs : x.isLeaf = true → x.isNegative = y.isNegative) :
    x.value s = y.value s := by
  induction hx generalizing y with
  | number a =>
    cases y <;> simp_all [Node.same, value]
  | constant c negative collapsed =>
    cases y <;> simp_all [Node.same, value]
  | var v negative a bound =>
    have agree := signs rfl
    cases y <;> simp_all [Node.same, value, isNegative]
  | power f base exponent defined ihb ihe =>
    cases hy with
    | power g base' exponent' defined' =>
      obtain ⟨b, e⟩ := f
      rw [Node.same] at same
      simp only [Bool.and_eq_true, beq_iff_eq] at same
      obtain ⟨⟨bases, baseSigns⟩, exponents, exponentSigns⟩ := same
      rw [value_power, value_power, Factor.value, Factor.value, Factor.order, Factor.order,
        ihb base' bases fun _ => baseSigns, ihe exponent' exponents fun _ => exponentSigns]
    | _ => simp [Node.same] at same
  | product t denominator factors divisors nonzero above below ihf ihd =>
    cases hy with
    | product u denominator' factors' divisors' nonzero' above' below' =>
      have hu : u.Admitted D s :=
        .product u denominator' factors' divisors' nonzero' above' below'
      have matched : ∀ fs : List (Factor (Node α)),
          (∀ f ∈ fs, ∀ {y : Node α}, y.Admitted D s → (Node.power f).same y = true →
            ((Node.power f).isLeaf = true → (Node.power f).isNegative = y.isNegative) →
              (Node.power f).value s = y.value s) →
          ∀ f ∈ fs, ∀ g : Factor (Node α), g.Admitted D s → f.same g = true →
            f.value s = g.value s := by
        intro fs each f hf g hg equal
        rw [← value_power, ← value_power]
        exact each f hf hg equal fun leaf => by cases leaf
      obtain ⟨n, d, fs, gs⟩ := t
      rw [Node.same] at same
      simp only [Bool.and_eq_true, beq_iff_eq] at same
      obtain ⟨⟨⟨numerators, denominators⟩, numerator⟩, divisor⟩ := same
      rw [value_product, value_product, Term.value_real hu, Term.value_eq]
      dsimp only
      rw [numerators, denominators,
        factorsValue_of_same factors (fun g hg => hu.factors g (Term.mem_factors hg))
          (matched fs ihf) numerator,
        factorsValue_of_same divisors (fun g hg => hu.divisors g (Term.mem_divisors hg))
          (matched gs ihd) divisor]
    | _ => simp [Node.same] at same
  | sum ts terms ih =>
    cases hy with
    | sum us terms' =>
      rw [Node.same] at same
      rw [value_sum, value_sum]
      exact termsValue_of_same terms'
        (fun t ht u hu equal => ih t ht hu equal fun leaf => by cases leaf) same
    | _ => simp [Node.same] at same
  | unary f a argument ih =>
    cases hy with
    | unary g b argument' =>
      rw [Node.same] at same
      simp only [Bool.and_eq_true, beq_iff_eq] at same
      rw [value, value, same.1, ih argument' same.2.1 fun _ => same.2.2]
    | _ => simp [Node.same] at same
  | binary f a b left right iha ihb =>
    cases hy with
    | binary g c d left' right' =>
      rw [Node.same] at same
      simp only [Bool.and_eq_true, beq_iff_eq] at same
      rw [value, value, same.1.1, iha left' same.1.2.1 fun _ => same.1.2.2,
        ihb right' same.2.1 fun _ => same.2.2]
    | _ => simp [Node.same] at same

theorem value_of_sameSigned {x y : Node α} (hx : x.Admitted D s) (hy : y.Admitted D s)
    (same : x.sameSigned y = true) : x.value s = y.value s := by
  rw [sameSigned, Bool.and_eq_true, beq_iff_eq] at same
  exact value_of_same hx hy same.1 fun _ => same.2

omit [ExactScalar α] in
/-- A leaf is equal to leaves only. -/
theorem isLeaf_of_sameSigned {x y : Node α} (same : x.sameSigned y = true) :
    x.isLeaf = y.isLeaf := by
  rw [sameSigned, Bool.and_eq_true] at same
  cases x <;> cases y <;> first | rfl | simp [Node.same] at same

end Node

theorem Factor.value_of_same {f g : Factor (Node α)} (hf : f.Admitted D s) (hg : g.Admitted D s)
    (same : f.same g = true) : f.value s = g.value s := by
  rw [← Node.value_power, ← Node.value_power]
  exact Node.value_of_same hf hg same fun leaf => by cases leaf

/-- Like terms differ in their coefficients only. -/
theorem Term.isLike_spec {t u : Term α (Node α)} (ht : t.Admitted D s) (hu : u.Admitted D s)
    (like : t.isLike u = true) :
    Node.factorsValue s t.realFactors = Node.factorsValue s u.realFactors ∧
      Node.factorsValue s t.realDivisors = Node.factorsValue s u.realDivisors := by
  rw [Term.isLike, Bool.and_eq_true] at like
  rw [Term.realFactors.eq_def t, Term.realDivisors.eq_def t, Node.factorsValue_real ht.factors,
    Node.factorsValue_real ht.divisors]
  constructor
  · refine Node.factorsValue_of_same ht.factors (fun g hg => hu.factors g (Term.mem_factors hg))
      (fun f hf g hg same => Factor.value_of_same (ht.factors f hf) hg same) like.1
  · refine Node.factorsValue_of_same ht.divisors (fun g hg => hu.divisors g (Term.mem_divisors hg))
      (fun f hf g hg same => Factor.value_of_same (ht.divisors f hf) hg same) like.2

end SymbolicAlgebra
