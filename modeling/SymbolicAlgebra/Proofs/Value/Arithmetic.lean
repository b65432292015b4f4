/-
  Products, quotients and powers keep the value
  =============================================
  Every operation on nodes gives a node for the result of the operation on what they
  stand for: **`Node.multiply_spec`**, **`Node.divide_spec`**,
  **`Node.subtract_spec`** and **`Node.raise_spec`**. Only a product of two sums and
  a difference simplify anything.
-/
import SymbolicAlgebra.Proofs.Value.Addition

namespace SymbolicAlgebra

variable {α : Type} [FieldScalar α] [ExactScalar α] {D : Discipline} {s : Scope α}

namespace Node

/-! ### Signs -/

omit [ExactScalar α] in
theorem eq_of_isMinusOne {n : Node α} (minus : n.isMinusOne = true) : n = .number (-1) := by
  cases n with
  | number x =>
    rw [isMinusOne, beq_iff_eq] at minus
    rw [minus]
  | _ => cases minus

omit [ExactScalar α] in
theorem value_var (v : Variable) (negative : Bool) :
    (Node.var v !negative : Node α).value s = -(Node.var v negative : Node α).value s := by
  cases negative <;> simp [value]

omit [ExactScalar α] in
theorem value_constant (c : Constant) (negative : Bool) :
    (Node.constant c !negative : Node α).value s = -(Node.constant c negative : Node α).value s := by
  cases negative <;> simp [value]

omit [ExactScalar α] in
theorem Admitted.var_sign {v : Variable} {negative : Bool}
    (h : (Node.var v negative : Node α).Admitted D s) (opposite : Bool) :
    (Node.var v opposite : Node α).Admitted D s := by
  cases h with
  | var _ _ x bound => exact .var v opposite x bound

omit [ExactScalar α] in
theorem Admitted.constant_sign {c : Constant} {negative : Bool}
    (h : (Node.constant c negative : Node α).Admitted D s) (opposite : Bool) :
    (Node.constant c opposite : Node α).Admitted D s := by
  cases h with
  | constant _ _ collapsed => exact .constant c opposite collapsed

/-! ### Products -/

/-- The product as a term. -/
theorem timesTerm_spec {m n : Node α} (hm : m.Admitted D s) (hn : n.Admitted D s) :
    (timesTerm m n).Admitted D s ∧ (timesTerm m n).value s = m.value s * n.value s := by
  obtain ⟨left, leftValue⟩ := Term.wrap_spec hm
  obtain ⟨right, rightValue⟩ := Term.wrap_spec hn
  obtain ⟨admitted, value⟩ := Term.times_spec left right
  refine ⟨admitted, ?_⟩
  rw [timesTerm, value_product, value, leftValue, rightValue]

/-- A leaf with its sign turned by a factor of minus one, or its product with another node. -/
theorem signed_spec {m opposite n : Node α} (hm : m.Admitted D s) (hn : n.Admitted D s)
    (admitted : opposite.Admitted D s) (value : opposite.value s = -m.value s) :
    (if n.isMinusOne then opposite else timesTerm m n).Admitted D s ∧
      (if n.isMinusOne then opposite else timesTerm m n).value s = m.value s * n.value s := by
  by_cases minus : n.isMinusOne = true
  · rw [if_pos minus, eq_of_isMinusOne minus, value, Node.value]
    exact ⟨admitted, by ring⟩
  · rw [if_neg minus]
    exact timesTerm_spec hm hn

/-- A variable times itself. -/
theorem square_spec {v : Variable} {negative : Bool}
    (hm : (Node.var v negative : Node α).Admitted D s) (opposite : Bool) :
    let square : Factor (Node α) := ⟨.var v false, .number (Scalar.ofInt 2)⟩
    let squared : Node α :=
      if negative != opposite then .product (Term.normal (-1) 1 [square] []) else .power square
    squared.Admitted D s ∧ squared.value s =
      (Node.var v negative : Node α).value s * (Node.var v opposite : Node α).value s := by
  intro square squared
  have order : square.order s = 2 := by
    rw [Factor.order, Node.value, ExactScalar.ofInt_cast, ExactScalar.toInt_cast]
  have admitted : square.Admitted D s := by
    refine Factor.admitted_iff.2 ⟨hm.var_sign false, .number _, ?_, ?_, ?_, ?_⟩
    · rw [Node.value, ExactScalar.ofInt_cast, ExactScalar.isWhole_cast]
    · intro _
      omega
    · cases D with
      | plain => rfl
      | stable => trivial
    · cases D with
      | plain => trivial
      | stable => exact ⟨.inl rfl, fun _ _ => rfl⟩
  have value : square.value s =
      (Node.var v false : Node α).value s * (Node.var v false : Node α).value s := by
    rw [Factor.value, order, zpow_two]
  have positive := value_var (s := s) v false
  by_cases differ : (negative != opposite) = true
  · obtain ⟨built, builtValue⟩ := Term.normal_spec (n := -1) (one_ne_zero (α := α))
      (List.forall_mem_singleton.2 admitted) (List.forall_mem_nil _) (List.forall_mem_nil _)
    simp only [squared, if_pos differ]
    refine ⟨built, ?_⟩
    rw [value_product, builtValue, factorsValue_cons, factorsValue_nil, value]
    cases negative with
    | false =>
      cases opposite with
      | false => cases differ
      | true =>
        rw [← Bool.not_false, positive]
        ring
    | true =>
      cases opposite with
      | false =>
        rw [← Bool.not_false, positive]
        ring
      | true => cases differ
  · simp only [squared, if_neg differ]
    refine ⟨admitted, ?_⟩
    rw [value_power, value]
    cases negative with
    | false =>
      cases opposite with
      | false => rfl
      | true => exact absurd rfl differ
    | true =>
      cases opposite with
      | false => exact absurd rfl differ
      | true =>
        rw [← Bool.not_false, positive]
        ring

/-- The terms of a product of sums add up to the product. -/
theorem crossTerms_spec {ts us : List (Term α (Node α))} (ht : ∀ t ∈ ts, t.Admitted D s)
    (hu : ∀ u ∈ us, u.Admitted D s) :
    (∀ t ∈ crossTerms ts us, t.Admitted D s) ∧
      termsValue s (crossTerms ts us) = termsValue s ts * termsValue s us := by
  have row : ∀ t : Term α (Node α), t.Admitted D s →
      (∀ k ∈ us.map fun u => t.times u, k.Admitted D s) ∧
        termsValue s (us.map fun u => t.times u) = t.value s * termsValue s us := by
    intro t first
    induction us with
    | nil => exact ⟨(fun k hk => by cases hk), by rw [termsValue_nil, mul_zero]; rfl⟩
    | cons u us ih =>
      obtain ⟨second, others⟩ := List.forall_mem_cons.1 hu
      obtain ⟨admitted, value⟩ := Term.times_spec first second
      obtain ⟨rest, total⟩ := ih others
      refine ⟨List.forall_mem_cons.2 ⟨admitted, rest⟩, ?_⟩
      rw [List.map_cons, termsValue_cons, termsValue_cons, value, total, mul_add]
  induction ts with
  | nil => exact ⟨(fun t ht => by cases ht), by rw [termsValue_nil, zero_mul]; rfl⟩
  | cons t ts ih =>
    obtain ⟨first, later⟩ := List.forall_mem_cons.1 ht
    obtain ⟨admitted, value⟩ := row t first
    obtain ⟨rest, total⟩ := ih later
    rw [crossTerms, List.flatMap_cons, termsValue_append, termsValue_cons, value, ← crossTerms, total,
      add_mul]
    exact ⟨List.forall_mem_append.2 ⟨admitted, rest⟩, rfl⟩

/-- Multiplying succeeds, and the result stands for the product. -/
theorem multiply_spec {m n : Node α} (hm : m.Admitted D s) (hn : n.Admitted D s) :
    ∃ r, m.multiply n = .ok r ∧ r.Admitted D s ∧ r.value s = m.value s * n.value s := by
  unfold multiply
  split
  · rename_i x y
    refine ⟨_, rfl, .number _, ?_⟩
    rw [FieldScalar.ofValue_eq, Node.value, Node.value, Node.value]
  · rename_i c negative
    obtain ⟨admitted, value⟩ := signed_spec hm hn (hm.constant_sign !negative) (value_constant c negative)
    exact ⟨_, rfl, admitted, value⟩
  · rename_i v negative w opposite
    by_cases same : (v == w) = true
    · obtain rfl : v = w := by simpa using same
      obtain ⟨admitted, value⟩ := square_spec hm opposite
      rw [if_pos same]
      exact ⟨_, rfl, admitted, value⟩
    · obtain ⟨admitted, value⟩ := timesTerm_spec hm hn
      rw [if_neg same]
      exact ⟨_, rfl, admitted, value⟩
  · rename_i v negative _
    obtain ⟨admitted, value⟩ := signed_spec hm hn (hm.var_sign !negative) (value_var v negative)
    exact ⟨_, rfl, admitted, value⟩
  · rename_i ts us
    obtain ⟨terms, product⟩ := crossTerms_spec (admitted_sum.1 hm) (admitted_sum.1 hn)
    obtain ⟨flat, flatValue⟩ := flattenedTerms_spec terms
    obtain ⟨ks, simplified, admitted, value⟩ := simplifyTerms_spec flat
    refine ⟨.sum ks, ?_, admitted_sum.2 admitted, ?_⟩
    · rw [simplified]
      rfl
    · rw [value_sum, value_sum, value_sum, value, flatValue, product]
  · obtain ⟨admitted, value⟩ := timesTerm_spec hm hn
    exact ⟨_, rfl, admitted, value⟩

/-! ### Negation, differences, quotients and powers -/

theorem negate_spec {n : Node α} (h : n.Admitted D s) :
    n.negate.Admitted D s ∧ n.negate.value s = -n.value s := by
  unfold negate
  split
  · rename_i x
    rw [FieldScalar.ofValue_eq, Node.value, Node.value]
    exact ⟨.number _, rfl⟩
  · rename_i c negative
    exact ⟨h.constant_sign _, value_constant c negative⟩
  · rename_i v negative
    exact ⟨h.var_sign _, value_var v negative⟩
  · obtain ⟨admitted, value⟩ := timesTerm_spec h (.number (-1))
    refine ⟨admitted, ?_⟩
    rw [value, Node.value, mul_neg_one]

/-- Subtracting succeeds, and the result stands for the difference. -/
theorem subtract_spec {m n : Node α} (hm : m.Admitted .stable s) (hn : n.Admitted .stable s) :
    ∃ r, m.subtract n = .ok r ∧ r.Admitted .stable s ∧ r.value s = m.value s - n.value s := by
  obtain ⟨negated, opposite⟩ := negate_spec hn
  obtain ⟨r, added, admitted, value⟩ := add_spec hm negated
  refine ⟨r, added, admitted, ?_⟩
  rw [value, opposite, sub_eq_add_neg]

/-- Dividing by what is not zero succeeds, and the result stands for the quotient. -/
theorem divide_spec {m n : Node α} (hm : m.Admitted D s) (hn : n.Admitted D s)
    (nonzero : n.value s ≠ 0) :
    ∃ r, m.divide n = .ok r ∧ r.Admitted D s ∧ r.value s = m.value s / n.value s := by
  obtain ⟨inverse, inverseValue⟩ := Term.ofNodes_spec (n := 1) (one_ne_zero (α := α))
    (List.forall_mem_singleton.2 (.number (1 : α))) (List.forall_mem_singleton.2 hn)
    (List.forall_mem_singleton.2 nonzero)
  obtain ⟨r, multiplied, admitted, value⟩ := multiply_spec hm inverse
  refine ⟨r, multiplied, admitted, ?_⟩
  rw [value, value_product, inverseValue]
  simp only [List.map_cons, List.map_nil, List.prod_cons, List.prod_nil, Node.value]
  ring

/-- Raising gives a node for the power, if the node it gives obeys the discipline. -/
theorem raise_spec {m n : Node α} (hm : m.Admitted D s) (hn : n.Admitted D s)
    (whole : Scalar.isWhole (n.value s) = true)
    (defined : m.value s = 0 → 0 ≤ Scalar.toInt (n.value s)) (plain : D.Exponent n)
    (raised : D.Raised s (Factor.raised m n)) :
    (m.raise n).Admitted D s ∧ (m.raise n).value s = m.value s ^ Scalar.toInt (n.value s) := by
  obtain ⟨base, exponent, integral, bounded, kept, value⟩ :=
    Factor.raised_parts hm hn whole defined
  constructor
  · exact .power _ base exponent ⟨integral, bounded, kept plain, raised⟩
  · rw [raise, value_power, value]
    rfl

end Node

end SymbolicAlgebra
