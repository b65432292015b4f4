/-
  Building terms keeps the value
  ==============================
  A term is built by multiplying it by one waiting factor after the other. A waiting
  factor stands for its value above the bar and for the inverse of it below, where
  it must not be zero (`Factor.Waits`). Each step takes one factor off and keeps the
  product of the term and all that still waits (`Term.gather_spec`), so a built term
  is the fraction it is built from: **`Term.normal_spec`**.

  A factor that ends in a term is *stable*: nothing in it dissolves, crosses the bar
  or goes into the coefficient any more.
-/
import SymbolicAlgebra.Proofs.Value.Evaluation
import SymbolicAlgebra.Proofs.Algebra.Splice

namespace SymbolicAlgebra

variable {α : Type} [FieldScalar α] {D : Discipline} {s : Scope α}

/-! ### Waiting factors -/

namespace Factor

/-- What a waiting factor stands for. -/
def side (s : Scope α) (p : Factor (Node α) × Bool) : α :=
  if p.2 then p.1.value s else (p.1.value s)⁻¹

/-- A waiting factor that has a value on its side of the bar. -/
def Waits (D : Discipline) (s : Scope α) (p : Factor (Node α) × Bool) : Prop :=
  p.1.Admitted D s ∧ (p.2 = false → p.1.value s ≠ 0)

/-- The product of all that waits. -/
def sides (s : Scope α) (ps : List (Factor (Node α) × Bool)) : α := (ps.map (side s)).prod

@[simp] theorem sides_nil : sides s ([] : List (Factor (Node α) × Bool)) = 1 := rfl

@[simp] theorem sides_cons (p : Factor (Node α) × Bool) (ps : List (Factor (Node α) × Bool)) :
    sides s (p :: ps) = side s p * sides s ps := by
  rw [sides, sides, List.map_cons, List.prod_cons]

@[simp] theorem sides_append (ps qs : List (Factor (Node α) × Bool)) :
    sides s (ps ++ qs) = sides s ps * sides s qs := by
  rw [sides, sides, sides, List.map_append, List.prod_append]

theorem sides_above (fs : List (Factor (Node α))) :
    sides s (fs.map (·, true)) = Node.factorsValue s fs := by
  induction fs with
  | nil => rfl
  | cons f fs ih =>
    rw [List.map_cons, sides_cons, ih, Node.factorsValue_cons]
    rfl

theorem sides_below (fs : List (Factor (Node α))) :
    sides s (fs.map (·, false)) = (Node.factorsValue s fs)⁻¹ := by
  induction fs with
  | nil => rw [List.map_nil, sides_nil, Node.factorsValue_nil, inv_one]
  | cons f fs ih =>
    rw [List.map_cons, sides_cons, ih, Node.factorsValue_cons, mul_inv]
    rfl

end Factor

/-! ### Factors that stay as they are -/

namespace Term

/-- A factor is stable when it neither dissolves nor crosses the bar, and multiplying by it
pushes it. -/
theorem stable_of_pushed {f : Factor (Node α)} (real : f.exponent.isZero = false)
    (whole : f.exponent.isUnit = true → f.base.isSpliced = false)
    (positive : ∀ x, f.exponent = .number x → Scalar.lt x 0 = false)
    (pushed : ∀ (t : Term α (Node α)) (above : Bool), t.multiplyBy above f = t.push above f) :
    f.Stable := by
  intro above rest t
  rw [gather_absorb real whole]
  congr 1
  unfold absorb
  split
  · rename_i x number
    rw [positive x number]
    exact pushed t above
  · exact pushed t above

/-! ### One factor after the other -/

/-- A term with one more factor. -/
theorem push_spec {t : Term α (Node α)} {f : Factor (Node α)} {above : Bool}
    (h : t.Admitted D s) (waits : Factor.Waits D s (f, above)) (listed : D.Listed s f) :
    (t.push above f).Admitted D s ∧ (t.push above f).value s = t.value s * Factor.side s (f, above) := by
  obtain ⟨denominator, factors, divisors, nonzero, real, realBelow⟩ := admitted_iff.1 h
  have single : ∀ g ∈ SymbolicAlgebra.realFactors [f], D.Listed s g := by
    intro g hg
    obtain rfl := List.mem_singleton.1 (List.mem_filter.1 hg).1
    exact listed
  have both : ∀ fs : List (Factor (Node α)),
      (∀ g ∈ SymbolicAlgebra.realFactors fs, D.Listed s g) →
        ∀ g ∈ SymbolicAlgebra.realFactors (fs ++ [f]), D.Listed s g := by
    intro fs hfs g hg
    rw [SymbolicAlgebra.realFactors, List.filter_append] at hg
    exact (List.mem_append.1 hg).elim (hfs g) (single g)
  cases above with
  | true =>
    constructor
    · refine admitted_iff.2 ⟨denominator, ?_, divisors, nonzero, both _ real, realBelow⟩
      intro g hg
      rcases List.mem_append.1 hg with hg | hg
      · exact factors g hg
      · exact List.mem_singleton.1 hg ▸ waits.1
    · rw [value_eq, value_eq]
      simp only [push, if_true, Factor.side, Node.factorsValue_append, Node.factorsValue_cons,
        Node.factorsValue_nil]
      ring
  | false =>
    constructor
    · refine admitted_iff.2 ⟨denominator, factors, ?_, ?_, real, both _ realBelow⟩
      · intro g hg
        rcases List.mem_append.1 hg with hg | hg
        · exact divisors g hg
        · exact List.mem_singleton.1 hg ▸ waits.1
      · intro g hg
        rcases List.mem_append.1 hg with hg | hg
        · exact nonzero g hg
        · exact List.mem_singleton.1 hg ▸ waits.2 rfl
    · rw [value_eq, value_eq]
      simp only [push, Bool.false_eq_true, if_false, Factor.side, Node.factorsValue_append,
        Node.factorsValue_cons, Node.factorsValue_nil]
      ring

/-- A term with another coefficient. -/
theorem rescaled_spec {t : Term α (Node α)} (h : t.Admitted D s) (x : α) {y : α} (nonzero : y ≠ 0) :
    Term.Admitted D s { t with numerator := t.numerator * x, denominator := t.denominator * y } ∧
      Term.value s { t with numerator := t.numerator * x, denominator := t.denominator * y } =
        t.value s * (x / y) := by
  obtain ⟨denominator, rest⟩ := admitted_iff.1 h
  refine ⟨admitted_iff.2 ⟨mul_ne_zero denominator nonzero, rest⟩, ?_⟩
  rw [value_eq, value_eq]
  dsimp only
  ring

theorem scale_spec {t : Term α (Node α)} (h : t.Admitted D s) {x : α} {above : Bool}
    (nonzero : above = false → x ≠ 0) :
    (t.scale above x).Admitted D s ∧
      (t.scale above x).value s = t.value s * (if above then x else x⁻¹) := by
  cases above with
  | true =>
    have scaled := rescaled_spec h x (one_ne_zero (α := α))
    simp only [mul_one, div_one] at scaled
    exact scaled
  | false =>
    have scaled := rescaled_spec h 1 (nonzero rfl)
    simp only [mul_one, one_div] at scaled
    exact scaled

/-- A term multiplied or divided by the coefficient of another one. -/
theorem scaleBy_spec {t u : Term α (Node α)} (h : t.Admitted D s) (denominator : u.denominator ≠ 0)
    {above : Bool} (numerator : above = false → u.numerator ≠ 0) :
    (t.scaleBy above u).Admitted D s ∧ (t.scaleBy above u).value s =
      t.value s * (if above then u.numerator / u.denominator else u.denominator / u.numerator) := by
  cases above with
  | true => exact rescaled_spec h u.numerator denominator
  | false => exact rescaled_spec h u.denominator (numerator rfl)

theorem negated_spec {t : Term α (Node α)} (h : t.Admitted D s) :
    Term.Admitted D s { t with numerator := -t.numerator } ∧
      Term.value s { t with numerator := -t.numerator } = -t.value s := by
  have scaled := rescaled_spec h (-1) (one_ne_zero (α := α))
  simp only [mul_one, div_one, mul_neg_one] at scaled
  exact scaled

/-- What is kept while a term is simplified and stays as it is may stand in a term. -/
theorem listed_of {f : Factor (Node α)} (kept : D.Kept s f) (stable : D = .stable → f.Stable) :
    D.Listed s f := by
  cases D with
  | plain => trivial
  | stable => exact ⟨kept, stable rfl⟩

/-- A variable or a constant with a sign: the sign of an odd power goes into the coefficient. -/
theorem unsigned_spec {t : Term α (Node α)} {signed bare : Node α} {x : α} {above : Bool}
    (h : t.Admitted D s) (waits : Factor.Waits D s (⟨signed, .number x⟩, above))
    (real : (Node.number x).isZero = false) (positive : Scalar.lt x 0 = false)
    (opposite : signed.value s = -bare.value s) (admitted : bare.Admitted D s)
    (leaf : bare.isLeaf = true)
    (pushed : ∀ (t : Term α (Node α)) (above : Bool),
      t.multiplyBy above ⟨bare, .number x⟩ = t.push above ⟨bare, .number x⟩) :
    let flipped := if Scalar.isOdd x then { t with numerator := -t.numerator } else t
    (flipped.push above ⟨bare, .number x⟩).Admitted D s ∧
      (flipped.push above ⟨bare, .number x⟩).value s =
        t.value s * Factor.side s (⟨signed, .number x⟩, above) := by
  intro flipped
  have defined := waits.1.defined
  have whole : Scalar.isWhole x = true := by
    have := defined.whole
    rwa [Node.value] at this
  have unsplit : bare.isSpliced = false := by
    cases bare <;> simp_all [Node.isLeaf, Node.isSpliced]
  have sign : Factor.value s ⟨signed, .number x⟩ =
      (if Scalar.isOdd x = true then -1 else 1) * Factor.value s ⟨bare, .number x⟩ := by
    rw [Factor.value, Factor.value, Factor.order, Factor.order, opposite, Node.value,
      FieldScalar.neg_zpow whole]
  have nonzero : above = false → Factor.value s ⟨bare, .number x⟩ ≠ 0 := by
    intro below zero
    refine waits.2 below ?_
    rw [sign, zero, mul_zero]
  have bounded : bare.value s = 0 → 0 ≤ Scalar.toInt x := by
    intro zero
    have vanishes : signed.value s = 0 := by rw [opposite, zero, neg_zero]
    have := defined.defined vanishes
    rwa [Factor.order, Node.value] at this
  have power : Factor.Admitted D s ⟨bare, .number x⟩ := by
    refine Factor.admitted_iff.2 ⟨admitted, .number x, ?_, ?_, defined.exponent, ?_⟩
    · rwa [Node.value]
    · rw [Factor.order, Node.value]
      exact bounded
    · cases D with
      | plain => trivial
      | stable => exact ⟨.inl leaf, fun _ _ => rfl⟩
  have listed : D.Listed s ⟨bare, .number x⟩ := by
    refine listed_of ?_ fun _ => stable_of_pushed real (fun _ => unsplit) ?_ pushed
    · cases D with
      | plain => trivial
      | stable => exact .inl leaf
    · intro y same
      cases same
      exact positive
  have signs : (if above then (Factor.value s ⟨signed, .number x⟩)
      else (Factor.value s ⟨signed, .number x⟩)⁻¹) =
      (if Scalar.isOdd x = true then -1 else 1) *
        Factor.side s (⟨bare, .number x⟩, above) := by
    rw [sign, Factor.side]
    by_cases odd : Scalar.isOdd x = true
    · cases above <;> simp [odd, inv_neg]
    · cases above <;> simp [odd]
  by_cases odd : Scalar.isOdd x = true
  · have turned : flipped = { t with numerator := -t.numerator } := if_pos odd
    have step := push_spec (negated_spec h).1 ⟨power, nonzero⟩ listed
    rw [turned]
    refine ⟨step.1, ?_⟩
    rw [step.2, (negated_spec h).2, Factor.side.eq_def s (⟨signed, .number x⟩, above), signs,
      if_pos odd]
    ring
  · have turned : flipped = t := if_neg odd
    have step := push_spec h ⟨power, nonzero⟩ listed
    rw [turned]
    refine ⟨step.1, ?_⟩
    rw [step.2, Factor.side.eq_def s (⟨signed, .number x⟩, above), signs, if_neg odd]
    ring

variable [ExactScalar α]

/-- Multiplying by a factor whose exponent, if it is a number, is not negative. -/
theorem multiplyBy_spec {t : Term α (Node α)} {f : Factor (Node α)} {above : Bool}
    (h : t.Admitted D s) (waits : Factor.Waits D s (f, above)) (kept : D.Kept s f)
    (real : f.exponent.isZero = false)
    (positive : ∀ x, f.exponent = .number x → Scalar.lt x 0 = false)
    (whole : D = .stable → f.exponent.isUnit = true → f.base.isSpliced = false) :
    (t.multiplyBy above f).Admitted D s ∧
      (t.multiplyBy above f).value s = t.value s * Factor.side s (f, above) := by
  obtain ⟨base, exponent⟩ := f
  have integral := waits.1.defined.whole
  unfold multiplyBy
  dsimp only
  split
  · rename_i b x
    rw [Node.value] at integral
    have computed : Scalar.power b x = Factor.value s ⟨.number b, .number x⟩ := by
      have bounded := waits.1.defined.defined
      rw [Factor.order, Node.value, Node.value] at bounded
      rw [ExactScalar.power_eq integral bounded, Factor.value, Factor.order, Node.value, Node.value]
    rw [computed]
    exact scale_spec h waits.2
  · rename_i v x
    rw [Node.value] at integral
    rw [if_pos integral]
    refine unsigned_spec h waits real (positive x rfl) ?_ ?_ rfl fun _ _ => rfl
    · rw [Node.value, Node.value]
      rfl
    · cases waits.1.base with
      | var _ _ y found => exact .var v false y found
  · rename_i c x
    rw [Node.value] at integral
    rw [if_pos integral]
    refine unsigned_spec h waits real (positive x rfl) ?_ ?_ rfl fun _ _ => rfl
    · rw [Node.value, Node.value]
      rfl
    · cases waits.1.base with
      | constant _ _ collapsed => exact .constant c false collapsed
  · rename_i number signedVar signedConstant
    refine push_spec h waits (listed_of kept fun strict => ?_)
    refine stable_of_pushed real (whole strict) positive fun u side => ?_
    unfold multiplyBy
    dsimp only
    split
    · exact absurd rfl (number _ _ rfl)
    · exact absurd rfl (signedVar _ _ rfl)
    · exact absurd rfl (signedConstant _ _ rfl)
    · rfl

/-- A factor with a negative exponent stands for the opposite power beyond the bar. -/
theorem crossed_spec {base : Node α} {x : α} {above : Bool}
    (waits : Factor.Waits D s (⟨base, .number x⟩, above)) (negative : Scalar.lt x 0 = true) :
    Factor.Waits D s (⟨base, .number (-x)⟩, !above) ∧
      Factor.side s (⟨base, .number (-x)⟩, !above) = Factor.side s (⟨base, .number x⟩, above) ∧
        0 < Factor.order s ⟨base, .number (-x)⟩ := by
  have integral := waits.1.defined.whole
  have bounded := waits.1.defined.defined
  rw [Node.value] at integral
  rw [Factor.order, Node.value] at bounded
  dsimp only at bounded
  have below : Scalar.toInt x < 0 := by
    rw [ExactScalar.lt_zero integral] at negative
    exact of_decide_eq_true negative
  have nonzero : base.value s ≠ 0 := by
    intro zero
    have := bounded zero
    omega
  have order : Factor.order s ⟨base, .number (-x)⟩ = -Scalar.toInt x := by
    rw [Factor.order, Node.value, ExactScalar.toInt_neg integral]
  have positive : 0 < Factor.order s ⟨base, .number (-x)⟩ := by omega
  have inverse : Factor.value s ⟨base, .number (-x)⟩ = (Factor.value s ⟨base, .number x⟩)⁻¹ := by
    rw [Factor.value, order, zpow_neg, Factor.value, Factor.order, Node.value]
  have power : Factor.Admitted D s ⟨base, .number (-x)⟩ := by
    refine Factor.admitted_iff.2 ⟨waits.1.base, .number _, ?_, ?_, ?_, ?_⟩
    · rw [Node.value]
      exact ExactScalar.isWhole_neg integral
    · exact fun zero => absurd zero nonzero
    · cases D with
      | plain => rfl
      | stable => trivial
    · cases D with
      | plain => trivial
      | stable => exact ⟨.inr (.inl positive.le), fun zero => absurd zero nonzero⟩
  refine ⟨⟨power, fun _ => ?_⟩, ?_, positive⟩
  · rw [Factor.value]
    exact zpow_ne_zero _ nonzero
  · rw [Factor.side, Factor.side, inverse]
    cases above <;> simp

/-- Multiplying or dividing by a factor that does not dissolve. -/
theorem absorb_spec {t : Term α (Node α)} {f : Factor (Node α)} {above : Bool}
    (h : t.Admitted D s) (waits : Factor.Waits D s (f, above))
    (real : f.exponent.isZero = false)
    (whole : D = .stable → f.exponent.isUnit = true → f.base.isSpliced = false) :
    (t.absorb above f).Admitted D s ∧
      (t.absorb above f).value s = t.value s * Factor.side s (f, above) := by
  have raised : D.Raised s f := waits.1.defined.raised
  have integral := waits.1.defined.whole
  obtain ⟨base, exponent⟩ := f
  unfold absorb
  dsimp only at real whole integral ⊢
  split
  · rename_i x
    rw [Node.value] at integral
    by_cases negative : Scalar.lt x 0 = true
    · rw [if_pos negative, FieldScalar.ofValue_eq]
      obtain ⟨crossed, same, positive⟩ := crossed_spec waits negative
      rw [← same]
      have nonzero : -x ≠ 0 := by
        intro zero
        rw [Factor.order, Node.value, zero, ExactScalar.toInt_zero] at positive
        exact lt_irrefl _ positive
      refine multiplyBy_spec h crossed ?_ ?_ ?_ ?_
      · cases D with
        | plain => trivial
        | stable => exact .inr positive.le
      · simpa [Node.isZero] using nonzero
      · intro y same
        cases same
        rw [ExactScalar.lt_zero (ExactScalar.isWhole_neg integral)]
        rw [Factor.order, Node.value] at positive
        exact decide_eq_false (by omega)
      · -- the exponent was minus one, which only a leaf may have under this discipline
        intro strict unit
        subst strict
        have one : -x = 1 := by simpa [Node.isUnit] using unit
        have order : Factor.order s ⟨base, .number x⟩ = -1 := by
          rw [Factor.order, Node.value, ← neg_neg x, one, ExactScalar.toInt_neg
            ExactScalar.isWhole_one, ExactScalar.toInt_one]
        rcases raised.1 with leaf | bound | ⟨-, other⟩
        · dsimp only at leaf
          cases base <;> simp_all [Node.isLeaf, Node.isSpliced]
        · omega
        · exact absurd order other
    · rw [if_neg negative]
      have nonnegative : 0 ≤ Factor.order s ⟨base, .number x⟩ := by
        rw [ExactScalar.lt_zero integral] at negative
        rw [Factor.order, Node.value]
        simpa using negative
      refine multiplyBy_spec h waits ?_ real ?_ whole
      · cases D with
        | plain => trivial
        | stable => exact .inr nonnegative
      · intro y same
        cases same
        simpa using negative
  · rename_i symbolic
    refine multiplyBy_spec h waits ?_ real (fun x same => absurd same (symbolic x)) whole
    cases D with
    | plain => trivial
    | stable =>
      rcases raised.1 with leaf | bound | ⟨number, -⟩
      · exact .inl leaf
      · exact .inr bound
      · exact absurd number (by cases exponent <;> simp_all [Node.isNumber])

omit [ExactScalar α] in
/-- The factors of a term that dissolves. -/
theorem waits_sides {u : Term α (Node α)} (h : u.Admitted D s) {above : Bool}
    (nonzero : above = false → u.value s ≠ 0) :
    (∀ p ∈ u.sides above, Factor.Waits D s p) ∧ (above = false → u.numerator ≠ 0) := by
  have inner : above = false → u.numerator ≠ 0 ∧ ∀ f ∈ u.factors, f.value s ≠ 0 := by
    intro below
    have whole := nonzero below
    rw [value_eq] at whole
    have product : u.numerator * Node.factorsValue s u.factors ≠ 0 := by
      intro zero
      exact whole (by rw [zero, zero_div])
    refine ⟨left_ne_zero_of_mul product, fun f hf zero => ?_⟩
    exact right_ne_zero_of_mul product (Node.factorsValue_eq_zero.2 ⟨f, hf, zero⟩)
  refine ⟨fun p hp => ?_, fun below => (inner below).1⟩
  rcases List.mem_append.1 hp with hp | hp
  · obtain ⟨f, hf, rfl⟩ := List.mem_map.1 hp
    have member := mem_factors hf
    exact ⟨h.factors f member, fun below => (inner below).2 f member⟩
  · obtain ⟨f, hf, rfl⟩ := List.mem_map.1 hp
    have member := mem_divisors hf
    exact ⟨h.divisors f member, fun _ => h.nonzero f member⟩

/-- A term that dissolves into its coefficient and its factors. -/
theorem value_sides {u : Term α (Node α)} (h : u.Admitted D s) (above : Bool) :
    (if above then u.numerator / u.denominator else u.denominator / u.numerator) *
        Factor.sides s (u.sides above) = if above then u.value s else (u.value s)⁻¹ := by
  rw [value_real h, Term.sides, Factor.sides_append]
  cases above with
  | true =>
    simp only [if_true, Bool.not_true, Factor.sides_above, Factor.sides_below]
    ring
  | false =>
    simp only [Bool.false_eq_true, if_false, Bool.not_false, Factor.sides_above,
      Factor.sides_below, inv_div]
    ring

/-- A term in place of a waiting factor gives its own factors to what waits. -/
theorem spliced_spec {t u : Term α (Node α)} {above : Bool}
    {rest : List (Factor (Node α) × Bool)} (h : t.Admitted D s) (inner : u.Admitted D s)
    (nonzero : above = false → u.value s ≠ 0) (later : ∀ p ∈ rest, Factor.Waits D s p) :
    (t.scaleBy above u).Admitted D s ∧ (∀ p ∈ rest ++ u.sides above, Factor.Waits D s p) ∧
      (t.scaleBy above u).value s * Factor.sides s (rest ++ u.sides above) =
        t.value s * ((if above then u.value s else (u.value s)⁻¹) * Factor.sides s rest) := by
  obtain ⟨dissolved, numerator⟩ := waits_sides inner nonzero
  obtain ⟨scaled, value⟩ := scaleBy_spec h inner.denominator numerator
  refine ⟨scaled, fun p hp => (List.mem_append.1 hp).elim (later p) (dissolved p), ?_⟩
  rw [value, Factor.sides_append, ← value_sides inner above]
  ring

theorem value_of_isUnit {f : Factor (Node α)} (unit : f.exponent.isUnit = true) :
    f.value s = f.base.value s := by
  obtain ⟨base, exponent⟩ := f
  have order : Factor.order s ⟨base, exponent⟩ = 1 := by
    cases exponent <;> simp_all [Node.isUnit, Factor.order, Node.value]
  rw [Factor.value, order, zpow_one]

/-- Multiplying by all that waits. -/
theorem gather_spec {ps : List (Factor (Node α) × Bool)} {t : Term α (Node α)}
    (h : t.Admitted D s) (waits : ∀ p ∈ ps, Factor.Waits D s p) :
    (gather ps t).Admitted D s ∧ (gather ps t).value s = t.value s * Factor.sides s ps := by
  fun_induction gather ps t with
  | case1 t => exact ⟨h, by rw [Factor.sides_nil, mul_one]⟩
  | case2 t base exponent above rest zero ih =>
    obtain ⟨first, later⟩ := List.forall_mem_cons.1 waits
    obtain ⟨admitted, value⟩ := ih h later
    have order : Factor.order s ⟨base, exponent⟩ = 0 := by
      rw [Factor.order, Node.value_of_isZero first.1.exponent zero, ExactScalar.toInt_zero]
    refine ⟨admitted, ?_⟩
    rw [value, Factor.sides_cons, Factor.side, Factor.value_of_order s order]
    simp
  | case3 t exponent above rest real unit u ih =>
    obtain ⟨first, later⟩ := List.forall_mem_cons.1 waits
    have whole : Factor.value s ⟨.product u, exponent⟩ = u.value s := value_of_isUnit unit
    obtain ⟨scaled, waiting, same⟩ := spliced_spec h first.1.base
      (fun below => whole ▸ first.2 below) later
    obtain ⟨admitted, value⟩ := ih scaled waiting
    refine ⟨admitted, ?_⟩
    rw [value, same, Factor.sides_cons, Factor.side, whole]
  | case4 t exponent above rest real unit u ih =>
    obtain ⟨first, later⟩ := List.forall_mem_cons.1 waits
    have whole : Factor.value s ⟨.sum [u], exponent⟩ = u.value s := by
      rw [value_of_isUnit unit, Node.value_sum, Node.termsValue_cons, Node.termsValue_nil, add_zero]
    obtain ⟨scaled, waiting, same⟩ := spliced_spec h
      (Node.admitted_sum.1 first.1.base u List.mem_cons_self) (fun below => whole ▸ first.2 below) later
    obtain ⟨admitted, value⟩ := ih scaled waiting
    refine ⟨admitted, ?_⟩
    rw [value, same, Factor.sides_cons, Factor.side, whole]
  | case5 t exponent above rest real unit f ih =>
    obtain ⟨first, later⟩ := List.forall_mem_cons.1 waits
    have whole : Factor.value s ⟨.power f, exponent⟩ = f.value s := by
      rw [value_of_isUnit unit, Node.value_power]
    have waiting : ∀ p ∈ rest ++ [(f, above)], Factor.Waits D s p := by
      intro p hp
      rcases List.mem_append.1 hp with hp | hp
      · exact later p hp
      · obtain rfl := List.mem_singleton.1 hp
        exact ⟨first.1.base, fun below => whole ▸ first.2 below⟩
    obtain ⟨admitted, value⟩ := ih h waiting
    refine ⟨admitted, ?_⟩
    rw [value, Factor.sides_append, Factor.sides_cons, Factor.sides_cons, Factor.sides_nil, mul_one,
      Factor.side, Factor.side, whole, mul_comm (Factor.sides s rest)]
  | case6 t exponent above rest real unit base product single power ih =>
    obtain ⟨first, later⟩ := List.forall_mem_cons.1 waits
    have unspliced := Node.isSpliced_of_apart product single power
    obtain ⟨absorbed, step⟩ := absorb_spec h first (by simpa using real) fun _ _ => unspliced
    obtain ⟨admitted, value⟩ := ih absorbed later
    refine ⟨admitted, ?_⟩
    rw [value, step, Factor.sides_cons, mul_assoc]
  | case7 t base exponent above rest real unit ih =>
    obtain ⟨first, later⟩ := List.forall_mem_cons.1 waits
    obtain ⟨absorbed, step⟩ := absorb_spec h first (by simpa using real)
      fun _ whole => absurd whole unit
    obtain ⟨admitted, value⟩ := ih absorbed later
    refine ⟨admitted, ?_⟩
    rw [value, step, Factor.sides_cons, mul_assoc]

/-! ### Built terms -/

theorem empty_spec : (Factor.empty : Factor (Node α)).Admitted D s ∧
    (Factor.empty : Factor (Node α)).value s = 1 := by
  have order : (Factor.empty : Factor (Node α)).order s = 0 := by
    rw [Factor.order, Factor.empty, Node.value, ExactScalar.toInt_zero]
  have one : (Factor.empty : Factor (Node α)).base.value s = 1 := by
    rw [Factor.empty, Node.value]
  refine ⟨Factor.admitted_iff.2 ⟨.number 1, .number 0, ?_, ?_, ?_, ?_⟩,
    Factor.value_of_order s order⟩
  · rw [Factor.empty, Node.value]
    exact ExactScalar.isWhole_zero
  · exact fun _ => order.ge
  · cases D with
    | plain => rfl
    | stable => trivial
  · cases D with
    | plain => trivial
    | stable => exact ⟨.inl rfl, fun _ _ => rfl⟩

/-- An empty product is written as a factor that is certainly one. -/
theorem filled_spec (fs : List (Factor (Node α))) :
    let filled := if fs.isEmpty then [Factor.empty] else fs
    SymbolicAlgebra.realFactors filled = SymbolicAlgebra.realFactors fs ∧
      Node.factorsValue s filled = Node.factorsValue s fs ∧
        ∀ f ∈ filled, f ∈ fs ∨ f = Factor.empty := by
  intro filled
  cases fs with
  | nil =>
    refine ⟨?_, ?_, fun f hf => .inr (List.mem_singleton.1 hf)⟩
    · simp [filled, SymbolicAlgebra.realFactors, Factor.isOne, Factor.empty, Node.isZero]
    · simp [filled, (empty_spec (D := .plain)).2]
  | cons f fs => exact ⟨rfl, rfl, fun g hg => .inl hg⟩

/-- The last step of building a term changes neither its value nor its factors. -/
theorem settled_spec {t : Term α (Node α)} (h : t.Admitted D s) :
    t.settled.Admitted D s ∧ t.settled.value s = t.value s := by
  obtain ⟨denominator, factors, divisors, nonzero, above, below⟩ := admitted_iff.1 h
  obtain ⟨realAbove, valueAbove, memberAbove⟩ := filled_spec (s := s) t.factors
  obtain ⟨realBelow, valueBelow, memberBelow⟩ := filled_spec (s := s) t.divisors
  have admitted : ∀ n d : α, d ≠ 0 → Term.Admitted D s ⟨n, d,
      if t.factors.isEmpty then [Factor.empty] else t.factors,
      if t.divisors.isEmpty then [Factor.empty] else t.divisors⟩ := by
    intro n d hd
    refine admitted_iff.2 ⟨hd, ?_, ?_, ?_, ?_, ?_⟩
    · exact fun f hf => (memberAbove f hf).elim (factors f) fun same => same ▸ empty_spec.1
    · exact fun f hf => (memberBelow f hf).elim (divisors f) fun same => same ▸ empty_spec.1
    · intro f hf
      refine (memberBelow f hf).elim (nonzero f) fun same => ?_
      rw [same, (empty_spec (D := D)).2]
      exact one_ne_zero
    · intro f hf
      rw [realFactors, realAbove] at hf
      exact above f hf
    · intro f hf
      rw [realDivisors, realBelow] at hf
      exact below f hf
  unfold settled
  dsimp only
  split
  · refine ⟨admitted _ _ (neg_ne_zero.2 denominator), ?_⟩
    rw [value_eq, value_eq, valueAbove, valueBelow, neg_mul, neg_mul, neg_div_neg_eq]
  · refine ⟨admitted _ _ denominator, ?_⟩
    rw [value_eq, value_eq, valueAbove, valueBelow]

/-- A built term is the fraction it is built from. -/
theorem normal_spec {n d : α} {fs gs : List (Factor (Node α))} (denominator : d ≠ 0)
    (above : ∀ f ∈ fs, f.Admitted D s) (below : ∀ g ∈ gs, g.Admitted D s)
    (nonzero : ∀ g ∈ gs, g.value s ≠ 0) :
    (normal n d fs gs).Admitted D s ∧
      (normal n d fs gs).value s = n * Node.factorsValue s fs / (d * Node.factorsValue s gs) := by
  have start : Term.Admitted D s ⟨n, d, [], []⟩ := by
    refine admitted_iff.2 ⟨denominator, ?_, ?_, ?_, ?_, ?_⟩ <;> intro f hf <;> cases hf
  have waits : ∀ p ∈ fs.map (·, true) ++ gs.map (·, false), Factor.Waits D s p := by
    intro p hp
    rcases List.mem_append.1 hp with hp | hp
    · obtain ⟨f, hf, rfl⟩ := List.mem_map.1 hp
      exact ⟨above f hf, fun impossible => by cases impossible⟩
    · obtain ⟨g, hg, rfl⟩ := List.mem_map.1 hp
      exact ⟨below g hg, fun _ => nonzero g hg⟩
  obtain ⟨gathered, value⟩ := gather_spec start waits
  obtain ⟨settled, same⟩ := settled_spec gathered
  refine ⟨settled, ?_⟩
  rw [normal, same, value, value_eq, Factor.sides_append, Factor.sides_above, Factor.sides_below]
  simp only [Node.factorsValue_nil, mul_one]
  ring

end Term

end SymbolicAlgebra
