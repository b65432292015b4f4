/-
  Equal bases are merged
  ======================
  How factors change while a term is simplified: each is simplified by itself, the
  exponents of equal bases are added, equal bases cancel across the bar. Every step
  keeps the product of the factors it works on, given rules for exponents that add
  and tidy them rightly (`ExponentRules.Sound`).

  Exponents are added for a zero base too. There the sum of two exponents is zero
  only when both are, and then both show it.
-/
import SymbolicAlgebra.Proofs.Value.Reduce
import SymbolicAlgebra.Proofs.Value.Same
import SymbolicAlgebra.Node.Simplify

namespace SymbolicAlgebra

variable {α : Type} [FieldScalar α] {D : Discipline} {s : Scope α}

namespace Node

/-- An operation that replaces every expression it is given. -/
def Replacing (D : Discipline) (s : Scope α) (f : Node α → Checked (Node α)) : Prop :=
  ∀ n : Node α, n.Admitted D s → ∃ m, f n = .ok m ∧ m.Replaces D s n

end Node

/-- Rules that add and tidy exponents rightly. -/
structure ExponentRules.Sound (D : Discipline) (s : Scope α) (rules : ExponentRules α) : Prop where
  add : ∀ m n : Node α, m.Admitted D s → n.Admitted D s → D.Exponent m → D.Exponent n →
    ∃ r, rules.add m n = .ok r ∧ r.Admitted D s ∧ r.value s = m.value s + n.value s ∧
      (m.isNumber = true → n.isNumber = true → r.isNumber = true)
  tidy : ∀ e : Node α, e.Admitted D s → D.Exponent e → ∃ r, rules.tidy e = .ok r ∧ r.Replaces D s e

/-- A power that is kept while a term is simplified. -/
structure Factor.Retained (D : Discipline) (s : Scope α) (f : Factor (Node α)) : Prop where
  admitted : f.Admitted D s
  kept : D.Kept s f

theorem Discipline.kept_of_order {f : Factor (Node α)} (positive : 0 ≤ f.order s) :
    D.Kept s f := by
  cases D with
  | plain => trivial
  | stable => exact .inr positive

variable [ExactScalar α]

theorem Factor.Retained.unit {n : Node α} (h : n.Admitted D s) :
    Factor.Retained D s ⟨n, .number 1⟩ := by
  refine ⟨(Factor.unit_spec h).1, Discipline.kept_of_order ?_⟩
  rw [Factor.order, Node.value, ExactScalar.toInt_one]
  exact zero_le_one

namespace Node

variable {rules : ExponentRules α} {simplify : Node α → Checked (Node α)}

/-! ### One factor -/

/-- A power of two numbers, worked out. -/
theorem workedOut_spec {b x : α} (h : Factor.Admitted D s ⟨.number b, .number x⟩) :
    Factor.Retained D s ⟨ofValue (Scalar.power b x), .number 1⟩ ∧
      Factor.value s ⟨ofValue (Scalar.power b x), .number 1⟩ =
        Factor.value s ⟨.number b, .number x⟩ := by
  have whole := h.defined.whole
  have bounded := h.defined.defined
  rw [Node.value] at whole
  rw [Factor.order, Node.value, Node.value] at bounded
  rw [FieldScalar.ofValue_eq]
  refine ⟨.unit (.number _), ?_⟩
  rw [(Factor.unit_spec (D := D) (.number _)).2, Node.value, ExactScalar.power_eq whole bounded,
    Factor.value, Factor.order, Node.value, Node.value]

theorem simplifyFactor_spec (sound : rules.Sound D s) (inner : Replacing D s simplify)
    {f : Factor (Node α)} (h : f.Admitted D s) :
    ∃ g, simplifyFactor rules simplify f = .ok g ∧ g.Admitted D s ∧ g.value s = f.value s ∧
      (D.Kept s f → D.Kept s g) := by
  obtain ⟨b, simplified, base⟩ := inner f.base h.base
  obtain ⟨e, tidied, exponent⟩ := sound.tidy f.exponent h.exponent h.defined.exponent
  have reduced := base.trans (reduce_replaces base.admitted)
  obtain ⟨power, value, kept⟩ := Factor.replaced h reduced exponent
  unfold simplifyFactor
  rw [simplified, tidied]
  simp only [bind, Except.bind, pure, Except.pure]
  split
  · rename_i zero
    refine ⟨Factor.empty, rfl, Term.empty_spec.1, ?_, fun _ => Discipline.kept_of_order ?_⟩
    · rw [Term.empty_spec (D := D) |>.2, ← value, Factor.value_of_order s]
      rw [Factor.order, value_of_isZero exponent.admitted zero, ExactScalar.toInt_zero]
    · rw [Factor.order, Factor.empty, Node.value, ExactScalar.toInt_zero]
  · split
    · rename_i x y left _
      rw [left] at power value kept ⊢
      obtain ⟨worked, same⟩ := workedOut_spec power
      split
      · exact ⟨_, rfl, worked.admitted, same.trans value, fun _ => worked.kept⟩
      · exact ⟨_, rfl, power, value, kept⟩
    · exact ⟨_, rfl, power, value, kept⟩

/-! ### Adding exponents -/

omit [ExactScalar α] in
/-- The power of a sum of exponents, for a zero base too. -/
theorem zpow_sum {b : α} {v w : ℤ} (left : b = 0 → 0 ≤ v) (right : b = 0 → 0 ≤ w) :
    b ^ (v + w) = b ^ v * b ^ w := by
  by_cases zero : b = 0
  · have positive := left zero
    have other := right zero
    by_cases none : v + w = 0
    · exact zpow_add' (.inr (.inr ⟨by omega, by omega⟩))
    · exact zpow_add' (.inr (.inl none))
  · exact zpow_add₀ zero v w

/-- Two powers of equal bases as one power, given the sum of their exponents. -/
theorem merged_spec {f g : Factor (Node α)} {e : Node α} (hf : f.Retained D s)
    (hg : g.Retained D s) (equal : g.base.sameSigned f.base = true) (sum : e.Admitted D s)
    (value : e.value s = g.exponent.value s + f.exponent.value s)
    (number : g.exponent.isNumber = true → f.exponent.isNumber = true → e.isNumber = true) :
    Factor.Retained D s ⟨g.base, e⟩ ∧ Factor.value s ⟨g.base, e⟩ = f.value s * g.value s := by
  have defined := hf.admitted.defined
  have defined' := hg.admitted.defined
  have bases := value_of_sameSigned hg.admitted.base hf.admitted.base equal
  have order : Factor.order s ⟨g.base, e⟩ = g.order s + f.order s := by
    rw [Factor.order, value, ExactScalar.toInt_add defined'.whole defined.whole]
    rfl
  have bounded : g.base.value s = 0 → 0 ≤ f.order s := fun zero => defined.defined (bases ▸ zero)
  have kept : D.Kept s ⟨g.base, e⟩ := by
    cases D with
    | plain => trivial
    | stable =>
      rcases hg.kept with leaf | positive
      · exact .inl leaf
      · rcases hf.kept with leaf | positive'
        · exact .inl ((isLeaf_of_sameSigned equal).trans leaf)
        · exact .inr (by omega)
  refine ⟨⟨Factor.admitted_iff.2 ⟨hg.admitted.base, sum, ?_, ?_, ?_, ?_⟩, kept⟩, ?_⟩
  · show Scalar.isWhole (e.value s) = true
    rw [value]
    exact ExactScalar.isWhole_add defined'.whole defined.whole
  · intro zero
    rw [order]
    exact add_nonneg (defined'.defined zero) (bounded zero)
  · cases D with
    | plain => exact number defined'.exponent defined.exponent
    | stable => trivial
  · cases D with
    | plain => trivial
    | stable =>
      refine ⟨kept.imp_right .inl, fun zero none => ?_⟩
      have positive := defined'.defined zero
      have positive' := bounded zero
      rw [order] at none
      exact number (defined'.visible zero (by omega))
        (defined.visible (bases ▸ zero) (by omega))
  · rw [Factor.value, Factor.value, Factor.value, order, ← bases, mul_comm (_ ^ _)]
    exact zpow_sum defined'.defined bounded

/-- A factor added to factors with different bases. -/
theorem collectOne_spec (sound : rules.Sound D s) {f : Factor (Node α)} (hf : f.Retained D s)
    {gs : List (Factor (Node α))} (hg : ∀ g ∈ gs, g.Retained D s) :
    ∃ ks, collectOne rules f gs = .ok ks ∧ (∀ k ∈ ks, k.Retained D s) ∧
      factorsValue s ks = f.value s * factorsValue s gs := by
  induction gs with
  | nil =>
    refine ⟨[f], rfl, fun k hk => List.mem_singleton.1 hk ▸ hf, ?_⟩
    rw [factorsValue_cons, factorsValue_nil]
  | cons g gs ih =>
    obtain ⟨first, later⟩ := List.forall_mem_cons.1 hg
    rw [collectOne]
    by_cases equal : g.base.sameSigned f.base = true
    · obtain ⟨e, added, sum, value, number⟩ := sound.add g.exponent f.exponent
        first.admitted.exponent hf.admitted.exponent first.admitted.defined.exponent
        hf.admitted.defined.exponent
      obtain ⟨merged, product⟩ := merged_spec hf first equal sum value number
      rw [if_pos equal, added]
      refine ⟨_, rfl, List.forall_mem_cons.2 ⟨merged, later⟩, ?_⟩
      rw [factorsValue_cons, factorsValue_cons, product, mul_assoc]
    · obtain ⟨ks, collected, rest, value⟩ := ih later
      rw [if_neg equal, collected]
      refine ⟨_, rfl, List.forall_mem_cons.2 ⟨first, rest⟩, ?_⟩
      rw [factorsValue_cons, factorsValue_cons, value]
      ring

/-- The factors with every base once. -/
theorem collect_spec (sound : rules.Sound D s) {fs : List (Factor (Node α))}
    (hf : ∀ f ∈ fs, f.Retained D s) :
    ∃ ks, collect rules fs = .ok ks ∧ (∀ k ∈ ks, k.Retained D s) ∧
      factorsValue s ks = factorsValue s fs := by
  have folded : ∀ fs gs : List (Factor (Node α)), (∀ f ∈ fs, f.Retained D s) →
      (∀ g ∈ gs, g.Retained D s) →
        ∃ ks, fs.foldlM (fun grouped f => collectOne rules f grouped) gs = .ok ks ∧
          (∀ k ∈ ks, k.Retained D s) ∧
            factorsValue s ks = factorsValue s fs * factorsValue s gs := by
    intro fs
    induction fs with
    | nil =>
      intro gs _ hg
      exact ⟨gs, rfl, hg, by rw [factorsValue_nil, one_mul]⟩
    | cons f fs ih =>
      intro gs hf hg
      obtain ⟨first, later⟩ := List.forall_mem_cons.1 hf
      obtain ⟨ks, collected, retained, value⟩ := collectOne_spec sound first hg
      obtain ⟨ms, rest, members, product⟩ := ih ks later retained
      rw [List.foldlM_cons, collected]
      refine ⟨ms, rest, members, ?_⟩
      rw [product, value, factorsValue_cons]
      ring
  obtain ⟨ks, collected, retained, value⟩ := folded fs [] hf fun g hg => by cases hg
  exact ⟨ks, collected, retained, by rw [value, factorsValue_nil, mul_one]⟩

/-! ### Cancelling -/

/-- The difference of two plain exponents of one base. -/
theorem difference_spec {b : Node α} {x y : α} (hb : b.Admitted D s)
    (left : Scalar.isWhole x = true) (right : Scalar.isWhole y = true)
    (less : Scalar.lt y x = true) :
    Factor.Retained D s ⟨b, ofValue (x - y)⟩ ∧
      Factor.order s ⟨b, ofValue (x - y)⟩ = Scalar.toInt x - Scalar.toInt y := by
  have order : Factor.order s ⟨b, ofValue (x - y)⟩ = Scalar.toInt x - Scalar.toInt y := by
    rw [Factor.order, FieldScalar.ofValue_eq, Node.value, ExactScalar.toInt_sub left right]
  have positive : 0 < Factor.order s ⟨b, ofValue (x - y)⟩ := by
    rw [ExactScalar.lt_eq right left, decide_eq_true_eq] at less
    omega
  refine ⟨⟨Factor.admitted_iff.2 ⟨hb, ?_, ?_, fun _ => positive.le, ?_, ?_⟩,
    Discipline.kept_of_order positive.le⟩, order⟩
  · rw [FieldScalar.ofValue_eq]
    exact .number _
  · rw [FieldScalar.ofValue_eq, Node.value]
    exact ExactScalar.isWhole_sub left right
  · rw [FieldScalar.ofValue_eq]
    cases D with
    | plain => rfl
    | stable => trivial
  · cases D with
    | plain => trivial
    | stable => exact ⟨.inr (.inl positive.le), fun _ none => by omega⟩

omit [ExactScalar α] in
/-- The power of a difference of exponents, where the divisor is not zero. -/
theorem zpow_difference {b : α} (v : ℤ) {w : ℤ} (nonzero : b ^ w ≠ 0) :
    b ^ (v - w) = b ^ v / b ^ w := by
  by_cases zero : b = 0
  · have none : w = 0 := by
      by_contra some
      exact nonzero (by rw [zero, zero_zpow w some])
    rw [none, sub_zero, zpow_zero, div_one]
  · exact zpow_sub₀ zero v w

/-- A factor cancelled against factors below the bar. -/
theorem cancelOne_spec {f : Factor (Node α)} (hf : f.Retained D s) {gs : List (Factor (Node α))}
    (hg : ∀ g ∈ gs, g.Retained D s) (nonzero : ∀ g ∈ gs, g.value s ≠ 0) :
    (∀ k ∈ (cancelOne f gs).1.toList, k.Retained D s) ∧
      (∀ k ∈ (cancelOne f gs).2, k.Retained D s ∧ k.value s ≠ 0) ∧
        factorsValue s (cancelOne f gs).1.toList / factorsValue s (cancelOne f gs).2 =
          f.value s / factorsValue s gs := by
  induction gs with
  | nil =>
    refine ⟨fun k hk => ?_, (fun k hk => by cases hk), ?_⟩
    · obtain rfl := List.mem_singleton.1 hk
      exact hf
    · rw [cancelOne, Option.toList_some, factorsValue_cons, factorsValue_nil, mul_one]
  | cons g gs ih =>
    obtain ⟨first, later⟩ := List.forall_mem_cons.1 hg
    obtain ⟨firstNonzero, laterNonzero⟩ := List.forall_mem_cons.1 nonzero
    have others : ∀ k ∈ gs, k.Retained D s ∧ k.value s ≠ 0 :=
      fun k hk => ⟨later k hk, laterNonzero k hk⟩
    rw [cancelOne]
    split
    · rename_i equal
      have bases := value_of_sameSigned first.admitted.base hf.admitted.base equal
      obtain ⟨b, e⟩ := f
      obtain ⟨c, k⟩ := g
      dsimp only at bases ⊢
      split
      · rename_i x y
        have left := hf.admitted.defined.whole
        have right := first.admitted.defined.whole
        have bounded := hf.admitted.defined.defined
        have values : Factor.value s ⟨b, .number x⟩ = b.value s ^ Scalar.toInt x ∧
            Factor.value s ⟨c, .number y⟩ = b.value s ^ Scalar.toInt y := by
          rw [Factor.value, Factor.value, Factor.order, Factor.order, Node.value, Node.value, ← bases]
          exact ⟨rfl, rfl⟩
        rw [Node.value] at left right
        rw [Factor.order, Node.value] at bounded
        dsimp only at bounded
        rw [values.2] at firstNonzero
        rw [factorsValue_cons, values.1, values.2]
        split
        · rename_i less
          obtain ⟨retained, order⟩ := difference_spec hf.admitted.base left right less
          refine ⟨fun m hm => ?_, others, ?_⟩
          · obtain rfl := List.mem_singleton.1 hm
            exact retained
          · rw [Option.toList_some, factorsValue_cons, factorsValue_nil, mul_one, Factor.value, order,
              zpow_difference _ firstNonzero, div_div]
        · split
          · rename_i more
            obtain ⟨retained, order⟩ := difference_spec first.admitted.base right left more
            have base : b.value s ≠ 0 := by
              intro zero
              have positive := bounded zero
              rw [ExactScalar.lt_eq left right, decide_eq_true_eq] at more
              exact firstNonzero (by rw [zero, zero_zpow _ (by omega)])
            have quotient : Factor.value s ⟨c, ofValue (y - x)⟩ =
                b.value s ^ Scalar.toInt y / b.value s ^ Scalar.toInt x := by
              rw [Factor.value, order, bases, zpow_difference _ (zpow_ne_zero _ base)]
            refine ⟨(fun m hm => by cases hm), List.forall_mem_cons.2 ⟨⟨retained, ?_⟩, others⟩, ?_⟩
            · rw [quotient]
              exact div_ne_zero firstNonzero (zpow_ne_zero _ base)
            · rw [Option.toList_none, factorsValue_nil, factorsValue_cons, quotient]
              have power := zpow_ne_zero (Scalar.toInt x) base
              field_simp
          · rename_i noMore noLess
            have orders : Scalar.toInt x = Scalar.toInt y := by
              rw [ExactScalar.lt_eq right left, decide_eq_true_eq] at noMore
              rw [ExactScalar.lt_eq left right, decide_eq_true_eq] at noLess
              omega
            refine ⟨(fun m hm => by cases hm), others, ?_⟩
            rw [Option.toList_none, factorsValue_nil, orders]
            field_simp
      · refine ⟨fun m hm => ?_, List.forall_mem_cons.2 ⟨⟨first, firstNonzero⟩, others⟩, ?_⟩
        · obtain rfl := List.mem_singleton.1 hm
          exact hf
        · rw [Option.toList_some, factorsValue_cons, factorsValue_nil, mul_one]
    · obtain ⟨above, below, value⟩ := ih later laterNonzero
      refine ⟨above, List.forall_mem_cons.2 ⟨⟨first, firstNonzero⟩, below⟩, ?_⟩
      dsimp only
      rw [factorsValue_cons, factorsValue_cons, mul_comm (g.value s), mul_comm (g.value s),
        ← div_div, ← div_div, value]

/-- Equal bases cancelled across the bar. -/
theorem cancel_spec {fs gs : List (Factor (Node α))} (hf : ∀ f ∈ fs, f.Retained D s)
    (hg : ∀ g ∈ gs, g.Retained D s) (nonzero : ∀ g ∈ gs, g.value s ≠ 0) :
    (∀ k ∈ (cancel fs gs).1, k.Retained D s) ∧
      (∀ k ∈ (cancel fs gs).2, k.Retained D s ∧ k.value s ≠ 0) ∧
        factorsValue s (cancel fs gs).1 / factorsValue s (cancel fs gs).2 =
          factorsValue s fs / factorsValue s gs := by
  induction fs generalizing gs with
  | nil => exact ⟨hf, fun k hk => ⟨hg k hk, nonzero k hk⟩, rfl⟩
  | cons f fs ih =>
    obtain ⟨first, later⟩ := List.forall_mem_cons.1 hf
    obtain ⟨kept, left, value⟩ := cancelOne_spec first hg nonzero
    obtain ⟨above, below, rest⟩ := ih later (fun k hk => (left k hk).1) fun k hk => (left k hk).2
    rw [cancel]
    refine ⟨fun k hk => (List.mem_append.1 hk).elim (kept k) (above k), below, ?_⟩
    dsimp only
    rw [factorsValue_append, mul_div_assoc, rest, factorsValue_cons, mul_div_right_comm, ← value]
    ring

omit [ExactScalar α] in
/-- Exponents tidied. -/
theorem tidyExponents_spec (sound : rules.Sound D s) {fs : List (Factor (Node α))}
    (hf : ∀ f ∈ fs, f.Admitted D s) :
    ∃ ks, tidyExponents rules fs = .ok ks ∧ (∀ k ∈ ks, k.Admitted D s) ∧
      factorsValue s ks = factorsValue s fs := by
  induction fs with
  | nil => exact ⟨[], rfl, hf, rfl⟩
  | cons f fs ih =>
    obtain ⟨first, later⟩ := List.forall_mem_cons.1 hf
    obtain ⟨e, tidied, exponent⟩ := sound.tidy f.exponent first.exponent first.defined.exponent
    obtain ⟨ks, rest, admitted, value⟩ := ih later
    obtain ⟨power, same, -⟩ := Factor.replaced first (.refl first.base) exponent
    unfold tidyExponents at rest ⊢
    refine ⟨⟨f.base, e⟩ :: ks, ?_, List.forall_mem_cons.2 ⟨power, admitted⟩, ?_⟩
    · rw [List.mapM_cons, rest, tidied]
      rfl
    · rw [factorsValue_cons, factorsValue_cons, same, value]

end Node

end SymbolicAlgebra
