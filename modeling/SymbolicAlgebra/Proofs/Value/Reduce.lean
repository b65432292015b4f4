/-
  Reducing keeps the value
  ========================
  One node replaces another when it is admitted and has the same value; a number, a
  constant or a variable is replaced by itself only (`Node.Replaces`). Under a
  discipline such a leaf says more than its value, so every rule that rewrites the
  base or the exponent of a power has to leave leaves alone.

  **`Node.reduceAt_replaces`**: reducing to any height replaces the expression.
-/
import Mathlib.Algebra.Group.Int.Units
import SymbolicAlgebra.Proofs.Value.Sum
import SymbolicAlgebra.Node.Reduce

namespace SymbolicAlgebra

variable {α : Type} [FieldScalar α] {D : Discipline} {s : Scope α}

/-- The first node is admitted and has the value of the second, and a leaf is replaced by itself
only. -/
structure Node.Replaces (D : Discipline) (s : Scope α) (m n : Node α) : Prop where
  admitted : m.Admitted D s
  value : m.value s = n.value s
  leaf : n.isLeaf = true → m = n

namespace Node

variable {k m n : Node α}

theorem Replaces.refl (h : n.Admitted D s) : n.Replaces D s n := ⟨h, rfl, fun _ => rfl⟩

theorem Replaces.trans (first : m.Replaces D s n) (next : k.Replaces D s m) :
    k.Replaces D s n := by
  refine ⟨next.admitted, next.value.trans first.value, fun leaf => ?_⟩
  have same := first.leaf leaf
  exact (next.leaf (same ▸ leaf)).trans same

omit [FieldScalar α] in
theorem isLeaf_of_isNumber (number : n.isNumber = true) : n.isLeaf = true := by
  cases n <;> first | rfl | cases number

end Node

/-- A power whose base and exponent are replaced. -/
theorem Factor.replaced {b c e k : Node α} (h : Factor.Admitted D s ⟨b, e⟩)
    (base : c.Replaces D s b) (exponent : k.Replaces D s e) :
    Factor.Admitted D s ⟨c, k⟩ ∧ Factor.value s ⟨c, k⟩ = Factor.value s ⟨b, e⟩ ∧
      (D.Kept s ⟨b, e⟩ → D.Kept s ⟨c, k⟩) := by
  obtain ⟨-, -, defined⟩ := admitted_iff.1 h
  have order : Factor.order s ⟨c, k⟩ = Factor.order s ⟨b, e⟩ := by
    rw [Factor.order, Factor.order, exponent.value]
  have number : e.isNumber = true → k.isNumber = true := fun number =>
    exponent.leaf (Node.isLeaf_of_isNumber number) ▸ number
  have leaf : b.isLeaf = true → c.isLeaf = true := fun leaf => base.leaf leaf ▸ leaf
  refine ⟨admitted_iff.2 ⟨base.admitted, exponent.admitted, ?_, ?_, ?_, ?_⟩, ?_, ?_⟩
  · show Scalar.isWhole (k.value s) = true
    rw [exponent.value]
    exact defined.whole
  · rw [order, base.value]
    exact defined.defined
  · cases D with
    | plain => exact number defined.exponent
    | stable => trivial
  · cases D with
    | plain => trivial
    | stable =>
      obtain ⟨shape, visible⟩ := defined.raised
      constructor
      · rw [order]
        rcases shape with shape | shape | ⟨shape, other⟩
        · exact .inl (leaf shape)
        · exact .inr (.inl shape)
        · exact .inr (.inr ⟨number shape, other⟩)
      · rw [order, base.value]
        exact fun zero none => number (visible zero none)
  · rw [Factor.value, Factor.value, order, base.value]
  · intro kept
    cases D with
    | plain => trivial
    | stable =>
      rcases kept with shape | shape
      · exact .inl (leaf shape)
      · exact .inr (order ▸ shape)

variable [ExactScalar α]

/-- A power of a power with plain exponents has their product as exponent; any other power stays
as it is. Its parts are admitted, and it keeps its value. -/
theorem Factor.raised_parts {b e : Node α} (base : b.Admitted D s) (exponent : e.Admitted D s)
    (whole : Scalar.isWhole (e.value s) = true)
    (defined : b.value s = 0 → 0 ≤ Scalar.toInt (e.value s)) :
    let f := Factor.raised b e
    f.base.Admitted D s ∧ f.exponent.Admitted D s ∧ Scalar.isWhole (f.exponent.value s) = true ∧
      (f.base.value s = 0 → 0 ≤ f.order s) ∧ (D.Exponent e → D.Exponent f.exponent) ∧
        f.value s = Factor.value s ⟨b, e⟩ := by
  unfold Factor.raised
  split
  · rename_i inner x y
    have part : Factor.Admitted D s ⟨inner, .number x⟩ := base
    have left := part.defined.whole
    have bounded := part.defined.defined
    rw [Factor.order] at bounded
    rw [Node.value] at left bounded whole
    rw [Node.value_power, Factor.value, Factor.order, Node.value, Node.value] at defined
    dsimp only at bounded defined
    rw [left, whole, FieldScalar.ofValue_eq, Bool.and_self, if_pos rfl]
    have order : Factor.order s ⟨inner, .number (x * y)⟩ = Scalar.toInt x * Scalar.toInt y := by
      rw [Factor.order, Node.value]
      exact ExactScalar.toInt_mul left whole
    refine ⟨part.base, .number _, ?_, ?_, ?_, ?_⟩
    · rw [Node.value]
      exact ExactScalar.isWhole_mul left whole
    · intro zero
      rw [order]
      by_cases none : Scalar.toInt x = 0
      · rw [none, zero_mul]
      · apply mul_nonneg (bounded zero)
        apply defined
        rw [zero, zero_zpow _ none]
    · intro _
      cases D with
      | plain => rfl
      | stable => trivial
    · rw [Factor.value, order, Factor.value, Factor.order, Node.value_power, Factor.value, Factor.order,
        Node.value, Node.value, zpow_mul]
  · exact ⟨base, exponent, whole, defined, id, rfl⟩

/-- The discipline holds of a power of a power when it holds of both. -/
theorem Factor.raised_raised {b e : Node α} (h : Factor.Admitted D s ⟨b, e⟩) :
    D.Raised s (Factor.raised b e) := by
  cases D with
  | plain => trivial
  | stable =>
    unfold Factor.raised
    split
    · rename_i inner x y
      have base : Factor.Admitted .stable s ⟨inner, .number x⟩ := h.base
      have left := base.defined.whole
      have right := h.defined.whole
      rw [Node.value] at left right
      have orders : Factor.order s ⟨inner, .number x⟩ = Scalar.toInt x ∧
          Factor.order s ⟨.power ⟨inner, .number x⟩, .number y⟩ = Scalar.toInt y ∧
            Factor.order s ⟨inner, .number (x * y)⟩ = Scalar.toInt x * Scalar.toInt y := by
        refine ⟨?_, ?_, ?_⟩ <;> rw [Factor.order, Node.value]
        exact ExactScalar.toInt_mul left right
      obtain ⟨orderInner, orderOuter, order⟩ := orders
      rw [left, right, FieldScalar.ofValue_eq, Bool.and_self, if_pos rfl]
      refine ⟨?_, fun _ _ => rfl⟩
      rw [order]
      have shape := base.defined.raised.1
      have shapeOuter := h.defined.raised.1
      rw [orderInner] at shape
      rw [orderOuter] at shapeOuter
      rcases shape with shape | shape
      · exact .inl shape
      · refine .inr (.inr ⟨rfl, fun inverse => ?_⟩)
        -- one of the orders is minus one, which neither power allows without a leaf as base
        rcases shapeOuter with leaf | shapeOuter
        · cases leaf
        · rcases Int.mul_eq_neg_one_iff_eq_one_or_neg_one.1 inverse with ⟨-, unit⟩ | ⟨unit, -⟩
          · rcases shapeOuter with positive | ⟨-, other⟩
            · omega
            · exact other unit
          · rcases shape with positive | ⟨-, other⟩
            · omega
            · exact other unit
    · exact h.defined.raised

/-- A whole power of a whole power. -/
theorem Factor.raised_spec {b e : Node α} (h : Factor.Admitted D s ⟨b, e⟩) :
    (Factor.raised b e).Admitted D s ∧ (Factor.raised b e).value s = Factor.value s ⟨b, e⟩ := by
  obtain ⟨base, exponent, whole, defined, plain, value⟩ :=
    Factor.raised_parts h.base h.exponent h.defined.whole h.defined.defined
  refine ⟨admitted_iff.2 ⟨base, exponent, ?_⟩, value⟩
  exact ⟨whole, defined, plain h.defined.exponent, Factor.raised_raised h⟩

namespace Node

variable {reduce : Node α → Node α}
  (inner : ∀ n : Node α, n.Admitted D s → (reduce n).Replaces D s n)

include inner

/-- A power whose parts are reduced. -/
theorem reduceFactor_spec {f : Factor (Node α)} (h : f.Admitted D s) :
    (reduceFactor reduce f).Admitted D s ∧ (reduceFactor reduce f).value s = f.value s := by
  have base := inner _ h.base
  have exponent := inner _ h.exponent
  obtain ⟨power, value, -⟩ := Factor.replaced h base exponent
  obtain ⟨admitted, same⟩ := Factor.raised_spec power
  unfold reduceFactor
  dsimp only
  split
  · rename_i x number
    rw [number] at power value admitted same
    split
    · rename_i zero
      refine ⟨.number 1, ?_⟩
      rw [← value, Factor.value_of_order s, Node.value]
      rw [Factor.order, Node.value, eq_of_beq zero, ExactScalar.toInt_zero]
    · split
      · rename_i one
        refine ⟨base.admitted, ?_⟩
        rw [← value, Term.value_of_isUnit]
        exact one
      · refine ⟨admitted, ?_⟩
        rw [value_power, same, value]
  · refine ⟨admitted, ?_⟩
    rw [value_power, same, value]

theorem reducedFactors_spec {fs : List (Factor (Node α))} (h : ∀ f ∈ fs, f.Admitted D s) :
    (∀ n ∈ fs.map (reduceFactor reduce), n.Admitted D s) ∧
      ((fs.map (reduceFactor reduce)).map (Node.value s)).prod = factorsValue s fs := by
  constructor
  · intro n hn
    obtain ⟨f, hf, rfl⟩ := List.mem_map.1 hn
    exact (reduceFactor_spec inner (h f hf)).1
  · rw [factorsValue_eq, List.map_map]
    congr 1
    exact List.map_congr_left fun f hf => (reduceFactor_spec inner (h f hf)).2

/-- A term whose factors are reduced. -/
theorem reduceTerm_spec {t : Term α (Node α)} (h : t.Admitted D s) :
    (reduceTerm reduce t).Admitted D s ∧ (reduceTerm reduce t).value s = t.value s := by
  obtain ⟨above, product⟩ := reducedFactors_spec inner fun f hf => h.factors f (Term.mem_factors hf)
  obtain ⟨below, divisor⟩ := reducedFactors_spec inner
    fun f hf => h.divisors f (Term.mem_divisors hf)
  have nonzero : ∀ n ∈ t.realDivisors.map (reduceFactor reduce), n.value s ≠ 0 := by
    intro n hn
    obtain ⟨f, hf, rfl⟩ := List.mem_map.1 hn
    have member := Term.mem_divisors hf
    rw [(reduceFactor_spec inner (h.divisors f member)).2]
    exact h.nonzero f member
  obtain ⟨admitted, value⟩ := Term.ofNodes_spec (n := t.numerator) h.denominator above below nonzero
  rw [product, divisor, ← Term.value_real h] at value
  unfold reduceTerm
  dsimp only
  generalize Term.ofNodes t.numerator t.denominator (t.realFactors.map (reduceFactor reduce))
    (t.realDivisors.map (reduceFactor reduce)) = reduced at admitted value ⊢
  have whole : (Node.product reduced).Admitted D s ∧
      (Node.product reduced).value s = t.value s := ⟨admitted, value⟩
  split
  · rename_i zero
    refine ⟨.number 0, ?_⟩
    rw [← value, Term.value_of_isZero admitted zero, Node.value]
  · split
    · rename_i plain
      simp only [Bool.and_eq_true, beq_iff_eq, List.isEmpty_iff] at plain
      have flat : t.value s = reduced.numerator * factorsValue s reduced.realFactors := by
        rw [← value, Term.value_real admitted, plain.1, plain.2, factorsValue_nil, mul_one, div_one]
      split
      · rename_i none
        rw [none, factorsValue_nil, mul_one] at flat
        rw [FieldScalar.ofValue_eq]
        exact ⟨.number _, by rw [Node.value, flat]⟩
      · rename_i f only
        have member : f ∈ reduced.factors := Term.mem_factors (by rw [only]; exact List.mem_cons_self)
        obtain ⟨single, same⟩ := reduceFactor_spec inner (admitted.factors f member)
        rw [only, factorsValue_cons, factorsValue_nil, mul_one, ← same] at flat
        split
        · rename_i one
          refine ⟨single, ?_⟩
          rw [flat, eq_of_beq one, one_mul]
        · split
          · rename_i minus
            rw [eq_of_beq minus, neg_one_mul] at flat
            split
            · rename_i v negative var
              rw [var] at single flat
              cases single with
              | var _ _ x bound =>
                refine ⟨.var v _ x bound, ?_⟩
                rw [flat, Node.value, Node.value]
                cases negative <;> simp
            · rename_i c negative constant
              rw [constant] at single flat
              cases single with
              | constant _ _ collapsed =>
                refine ⟨.constant c _ collapsed, ?_⟩
                rw [flat, Node.value, Node.value]
                cases negative <;> simp
            · exact whole
          · exact whole
      · exact whole
    · exact whole

omit inner

/-- Reducing to any height replaces the expression. -/
theorem reduceAt_replaces (height : Nat) {n : Node α} (h : n.Admitted D s) :
    (reduceAt height n).Replaces D s n := by
  induction height generalizing n with
  | zero => exact .refl h
  | succ height ih =>
    have inner : ∀ n : Node α, n.Admitted D s → (reduceAt height n).Replaces D s n :=
      fun n hn => ih hn
    unfold reduceAt
    split
    · rename_i f
      obtain ⟨admitted, value⟩ := reduceFactor_spec inner h
      exact ⟨admitted, by rw [value, value_power], fun leaf => by cases leaf⟩
    · rename_i t
      obtain ⟨admitted, value⟩ := reduceTerm_spec inner h
      exact ⟨admitted, value, fun leaf => by cases leaf⟩
    · rename_i t
      obtain ⟨admitted, value⟩ := reduceTerm_spec inner (admitted_sum.1 h t List.mem_cons_self)
      refine ⟨admitted, ?_, fun leaf => by cases leaf⟩
      rw [value, value_sum, termsValue_cons, termsValue_nil, add_zero]
    · rename_i ts _
      have terms := admitted_sum.1 h
      have each : ∀ m ∈ ts.map (reduceTerm (reduceAt height)), m.Admitted D s := by
        intro m hm
        obtain ⟨t, ht, rfl⟩ := List.mem_map.1 hm
        exact (reduceTerm_spec inner (terms t ht)).1
      obtain ⟨admitted, value⟩ := flattened_spec each
      refine ⟨admitted_sum.2 admitted, ?_, fun leaf => by cases leaf⟩
      rw [value_sum, value_sum, value, termsValue_eq, List.map_map]
      congr 1
      exact List.map_congr_left fun t ht => (reduceTerm_spec inner (terms t ht)).2
    · rename_i f x
      cases h with
      | unary _ _ argument =>
        have part := ih argument
        refine ⟨.unary f _ part.admitted, ?_, fun leaf => by cases leaf⟩
        rw [Node.value, Node.value, part.value]
    · rename_i f x y
      cases h with
      | binary _ _ _ left right =>
        have first := ih left
        have second := ih right
        refine ⟨.binary f _ _ first.admitted second.admitted, ?_, fun leaf => by cases leaf⟩
        rw [Node.value, Node.value, first.value, second.value]
    · exact .refl h

/-- Reducing replaces the expression. -/
theorem reduce_replaces {n : Node α} (h : n.Admitted D s) : n.reduce.Replaces D s n :=
  reduceAt_replaces _ h

end Node

end SymbolicAlgebra
