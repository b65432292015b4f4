/-
  One reduction is enough
  =======================
  Reducing an expression leaves something to reduce in three cases only: two exponents
  that are multiplied come to one or zero, a factor that has just been reduced crosses
  the bar undissolved, and all but one term of a sum turn out to be zero. An expression
  is *straight* when none of these happens in it (`Node.Straight`); the conditions are
  about its parts as they come out of reducing.

  What a straight expression is reduced to is reduced (`Node.Straight.reduced`), and so
  stays as it is when it is reduced again: **`Node.reduce_idempotent`**.
-/
import SymbolicAlgebra.Proofs.Lasting.Reduced
import SymbolicAlgebra.Proofs.CarryOver.Parsing

namespace SymbolicAlgebra

variable {α : Type} [Scalar α]

/-! ### Reduced factors -/

/-- The parts of the factor are reduced, and it is no whole power of a whole power. -/
structure Factor.Reduced (f : Factor (Node α)) : Prop where
  parts : f.Meets Demand.reduced
  apart : ¬ f.Fuses

namespace Factor.Reduced

variable {f : Factor (Node α)}

theorem shown (h : f.Reduced) (intact : f.Intact) : f.shown.Meets Demand.reduced := by
  cases unit : f.isUnit with
  | true =>
    rw [shown_of_isUnit unit]
    exact h.parts.base
  | false =>
    rw [shown_of_other unit]
    exact Node.meets_power.2 ⟨⟨unit, intact⟩, h.parts⟩

/-- Building a term takes nothing but reduced factors out of reduced ones. -/
theorem passes [RegularScalar α] : Term.Passes (Reduced : Factor (Node α) → Prop) Reduced where
  product h _ f hf := by
    obtain ⟨⟨intact, -⟩, each⟩ := Node.meets_product.1 h.parts.base
    exact ⟨each f hf, intact.apart f hf⟩
  single h _ := absurd rfl (Node.meets_sum.1 h.parts.base).1.1.2
  power h _ := by
    obtain ⟨⟨-, intact⟩, parts⟩ := Node.meets_power.1 h.parts.base
    exact ⟨parts, intact.apart⟩
  listed h _ := h
  crossed {b x} h negative := by
    refine ⟨⟨h.parts.base, .number _ trivial⟩, ?_⟩
    rintro ⟨inner, y, z, power, number, whole, other⟩
    have turned : Node.ofValue (-x) = (.number (-x) : Node α) := by
      rw [Node.ofValue, Scalar.unsignedZero, if_neg (by simp [SignedScalar.neg_beq x negative])]
    cases turned.symm.trans number
    exact h.apart ⟨inner, y, x, power, rfl, whole, (RegularScalar.isWhole_neg x).symm.trans other⟩
  var {v e} h := by
    refine ⟨⟨.var v false, h.parts.exponent⟩, ?_⟩
    rintro ⟨inner, x, y, power, -⟩
    cases power
  constant {c e} h := by
    refine ⟨⟨.constant c false, h.parts.exponent⟩, ?_⟩
    rintro ⟨inner, x, y, power, -⟩
    cases power

end Factor.Reduced

theorem Node.Meets.asFactor {n : Node α} (h : n.Meets Demand.reduced) : n.asFactor.Reduced := by
  have single : (∀ f, n ≠ .power f) → Factor.Reduced ⟨n, .number 1⟩ := by
    intro other
    refine ⟨⟨h, .number 1 trivial⟩, ?_⟩
    rintro ⟨inner, x, y, power, -⟩
    exact other _ power
  cases n with
  | power f =>
    obtain ⟨⟨-, intact⟩, parts⟩ := meets_power.1 h
    exact ⟨parts, intact.apart⟩
  | _ => exact single nofun

/-- What is built of reduced factors has reduced factors. -/
theorem Term.normal_reduced [RegularScalar α] (n d : α) {fs gs : List (Factor (Node α))}
    (each : ∀ f ∈ fs ++ gs, f.Reduced) : ∀ f ∈ (normal n d fs gs).realParts, f.Reduced := by
  intro f hf
  obtain ⟨listed, other⟩ := mem_realParts.1 hf
  exact (Factor.Reduced.passes.normal n d each f listed).resolve_left (Factor.ne_empty_of_real other)

theorem Factor.reduced_raised {b e : Node α} (base : b.Meets Demand.reduced)
    (exponent : e.Meets Demand.reduced) : (raised b e).Reduced := by
  by_cases fuses : Fuses ⟨b, e⟩
  · obtain ⟨inner, x, y, power, number, whole, whole'⟩ := fuses
    obtain rfl : b = .power ⟨inner, .number x⟩ := power
    obtain rfl : e = .number y := number
    obtain ⟨⟨-, intact⟩, parts⟩ := Node.meets_power.1 base
    rw [raised, whole, whole']
    refine ⟨⟨parts.base, .number _ trivial⟩, ?_⟩
    rintro ⟨deeper, z, w, power, -, whole'', -⟩
    exact intact.apart ⟨deeper, z, x, power, rfl, whole'', whole⟩
  · rw [raised_of_apart fuses]
    exact ⟨⟨base, exponent⟩, fuses⟩

/-- As a part of a term, a factor with reduced parts reduces to one that is reduced. -/
theorem Factor.reduced_asFactor {f : Factor (Node α)} (base : f.base.reduce.Meets Demand.reduced)
    (exponent : f.exponent.reduce.Meets Demand.reduced) :
    (Node.reduceFactor Node.reduce f).asFactor.Reduced := by
  unfold Node.reduceFactor
  dsimp only
  split
  · rename_i x number
    rw [number] at exponent
    split
    · exact Node.Meets.asFactor (.number 1 trivial)
    · split
      · exact base.asFactor
      · exact reduced_raised base exponent
  · exact reduced_raised base exponent

/-! ### Straight expressions -/

/-- Where the factor is reduced to a power of a power and its exponents are multiplied, they do not
come to zero or one. -/
def Factor.Straight (f : Factor (Node α)) : Prop :=
  ∀ inner x y, f.base.reduce = .power ⟨inner, .number x⟩ → f.exponent.reduce = .number y →
    Scalar.isWhole x = true → Scalar.isWhole y = true → (y == 0) = false → (y == 1) = false →
      (x * y == 0) = false ∧ (x * y == 1) = false

/-- None of the factors, as they reduce, is left undissolved, unless the term is zero or comes down
to this factor. -/
def Term.Straight (t : Term α (Node α)) : Prop :=
  (t.reducedParts Node.reduce).isZero = true ∨ (t.reducedParts Node.reduce).Dissolved ∨
    ∃ f, (t.reducedParts Node.reduce).Sole f

/-- Every power by itself and every term is straight, and a sum of several terms keeps more than
one. -/
def Demand.straight : Demand α where
  number _ := True
  power := Factor.Straight
  term := Term.Straight
  sum ts := (∀ t ∈ ts, t.Straight) ∧
    (ts.length ≠ 1 → (Node.flattened (ts.map (Node.reduceTerm Node.reduce))).length ≠ 1)

/-- Reducing the expression leaves nothing to reduce. -/
def Node.Straight (n : Node α) : Prop := n.Meets Demand.straight

theorem Factor.Straight.reduced {f : Factor (Node α)} (h : f.Straight)
    (base : f.base.reduce.Meets Demand.reduced) (exponent : f.exponent.reduce.Meets Demand.reduced) :
    (Node.reduceFactor Node.reduce f).Meets Demand.reduced := by
  unfold Factor.Straight at h
  unfold Node.reduceFactor
  dsimp only
  generalize f.base.reduce = b at h base
  generalize f.exponent.reduce = e at h exponent
  -- what is raised is reduced, so that only its exponent can be out of place
  have power : (raised b e).isUnit = false →
      (∀ x, (raised b e).exponent = .number x → (x == 0) = false) →
      (Node.power (raised b e)).Meets Demand.reduced := by
    intro other present
    have reduced := reduced_raised base exponent
    exact Node.meets_power.2 ⟨⟨other, present, reduced.apart⟩, reduced.parts⟩
  have symbolic : (∀ x, e ≠ .number x) → raised b e = ⟨b, e⟩ := by
    intro other
    refine raised_of_apart ?_
    rintro ⟨inner, x, y, -, number, -⟩
    exact other y number
  cases e with
  | number y =>
    dsimp only
    split
    · exact .number 1 trivial
    · rename_i some
      split
      · exact base
      · rename_i other
        rw [Bool.not_eq_true] at some other
        by_cases fuses : Fuses ⟨b, .number y⟩
        · obtain ⟨inner, x, _, rfl, ⟨⟩, whole, whole'⟩ := fuses
          obtain ⟨present, single⟩ := h inner x y rfl rfl whole whole' some other
          have fused : raised (.power ⟨inner, .number x⟩) (.number y) = ⟨inner, .number (x * y)⟩ := by
            rw [raised, whole, whole', Node.ofValue, Scalar.unsignedZero, present]
            rfl
          rw [fused] at power ⊢
          refine power single ?_
          rintro _ ⟨⟩
          exact present
        · rw [raised_of_apart fuses] at power ⊢
          refine power other ?_
          rintro _ ⟨⟩
          exact some
  | _ =>
    dsimp only
    rw [symbolic (by simp)] at power ⊢
    exact power rfl (by simp)

section Regular

variable [RegularScalar α]

namespace Term

variable {t : Term α (Node α)}

theorem keptBy_reduce (each : ∀ f ∈ t.realParts, f.Reduced) : t.KeptBy Node.reduce := by
  intro f hf g twins
  obtain ⟨base, exponent⟩ := Factor.twin_iff.1 twins
  have parts := (each f hf).parts
  exact ⟨Node.reduce_twin parts.base base, Node.reduce_twin parts.exponent exponent⟩

omit [RegularScalar α] in
theorem Face.reduced {n : Node α} (face : t.Face n) (intact : t.Intact) (present : t.isZero = false)
    (each : ∀ f ∈ t.realParts, f.Reduced) : n.Meets Demand.reduced := by
  cases face with
  | product twin several =>
    refine Node.Twin.meets Demand.reduced_invariant twin ?_
    exact Node.meets_product.2 ⟨⟨intact, present, several⟩, fun f hf => (each f hf).parts⟩
  | number => exact .number _ trivial
  | @factor f n sole twin =>
    exact twin.meets Demand.reduced_invariant ((each f sole.mem).shown (intact.factor sole.mem))
  | var => exact .var _ _
  | constant => exact .constant _ _

/-- Alone, a reduced factor comes down to its node. -/
theorem faced_sole {f : Factor (Node α)} (normal : t.Normal) (sole : t.Sole f)
    (present : t.isZero = false) (each : ∀ f ∈ t.realParts, f.Reduced) :
    f.Intact ∧ f.shown.Twin (faced Node.reduce t) := by
  have intact : f.Intact := by
    refine ⟨fun x number => ?_, (each f sole.mem).apart⟩
    have real := (normal.factor sole.mem).real
    rw [number] at real
    exact real
  obtain ⟨base, exponent⟩ := keptBy_reduce each f sole.mem f (.refl _)
  have parts : f.Twin ⟨f.base.reduce, f.exponent.reduce⟩ := Factor.twin_iff.2 ⟨base, exponent⟩
  rw [faced_of_sole present sole, (parts.intact intact).reduceFactor_eq]
  exact ⟨intact, parts.shown⟩

theorem faced_reduced (normal : t.Normal) (each : ∀ f ∈ t.realParts, f.Reduced)
    (clear : t.isZero = true ∨ t.Dissolved ∨ ∃ f, t.Sole f) :
    (faced Node.reduce t).Meets Demand.reduced := by
  cases present : t.isZero with
  | true =>
    rw [faced_of_zero present]
    exact .number 0 trivial
  | false =>
    rcases clear with zero | dissolved | ⟨f, sole⟩
    · rw [present] at zero
      cases zero
    · have intact : t.Intact := ⟨normal.lasting dissolved, fun f hf => (each f hf).apart⟩
      exact (intact.face present (keptBy_reduce each) (.refl _)).reduced intact present each
    · obtain ⟨intact, twin⟩ := faced_sole normal sole present each
      exact twin.meets Demand.reduced_invariant ((each f sole.mem).shown intact)

/-! ### Sums -/

/-- The term stands in a reduced sum. -/
structure Settled (t : Term α (Node α)) : Prop where
  intact : t.Intact
  bare : t.soleSum? = none
  parts : ∀ f ∈ t.realParts, f.Meets Demand.reduced

omit [RegularScalar α] in
theorem Twin.settled {u : Term α (Node α)} (twin : t.Twin u) (h : t.Settled) : u.Settled := by
  obtain ⟨-, factors, divisors⟩ := twin_iff.1 twin
  have moved : ∀ {f g : Factor (Node α)}, f.Twin g → f.Meets Demand.reduced →
      g.Meets Demand.reduced := by
    intro f g twins parts
    obtain ⟨base, exponent⟩ := Factor.twin_iff.1 twins
    exact ⟨base.meets Demand.reduced_invariant parts.base,
      exponent.meets Demand.reduced_invariant parts.exponent⟩
  refine ⟨twin.intact h.intact, twin.plain h.bare, forall_realParts.2 ⟨fun g hg => ?_, fun g hg => ?_⟩⟩
  · obtain ⟨f, hf, twins⟩ := exists_of_forall₂ factors hg
    exact moved twins (h.parts f (List.mem_append_left _ hf))
  · obtain ⟨f, hf, twins⟩ := exists_of_forall₂ divisors hg
    exact moved twins (h.parts f (List.mem_append_right _ hf))

/-- A power whose exponent is not one, also when it crosses the bar, is no sum in brackets. -/
theorem normal_power_bare {g : Factor (Node α)} (other : g.isUnit = false)
    (upright : ∀ x, g.exponent = .number x → Scalar.lt x 0 = true → (-x == 1) = false) :
    (normal 1 1 [g] []).soleSum? = none := by
  have passes : Passes (· = g) (·.isUnit = false) := by
    refine ⟨?_, ?_, ?_, ?_, ?_, id, id⟩
    · rintro t e rfl unit
      exact absurd unit (Bool.eq_false_iff.1 other)
    · rintro t e rfl unit
      exact absurd unit (Bool.eq_false_iff.1 other)
    · rintro f e rfl unit
      exact absurd unit (Bool.eq_false_iff.1 other)
    · rintro f rfl -
      exact other
    · rintro b x rfl negative
      have turned : Node.ofValue (-x) = (.number (-x) : Node α) := by
        rw [Node.ofValue, Scalar.unsignedZero, if_neg (by simp [SignedScalar.neg_beq x negative])]
      rw [turned]
      exact upright x rfl negative
  cases sole : (normal 1 1 [g] []).soleSum? with
  | none => rfl
  | some ts =>
    obtain ⟨-, e, unit, factors, -⟩ := soleSum?_eq_some.1 sole
    have member : ⟨.sum ts, e⟩ ∈ (normal 1 1 [g] []).realParts :=
      List.mem_append_left _ (factors ▸ List.mem_cons_self)
    obtain ⟨listed, real⟩ := mem_realParts.1 member
    have same : ∀ f ∈ [g] ++ [], f = g := List.forall_mem_singleton.2 rfl
    rcases passes.normal 1 1 same _ listed with empty | composite
    · cases empty
    · exact absurd unit (Bool.eq_false_iff.1 composite)

omit [RegularScalar α] in
theorem settled_terms {us : List (Term α (Node α))} (h : (Node.sum us).Meets Demand.reduced) :
    ∀ u ∈ us, u.Settled := by
  obtain ⟨⟨-, each⟩, parts⟩ := Node.meets_sum.1 h
  intro u hu
  obtain ⟨intact, -, bare⟩ := each u hu
  exact ⟨intact, bare, parts u hu⟩

/-- A number contributes a term without factors. -/
theorem number_summands (x : α) : ∀ u ∈ (Node.number x).summands, u.Settled := by
  have sides : (wrap (.number x)).realFactors = [] ∧ (wrap (.number x)).realDivisors = [] := by
    rw [wrap, Node.asFactor, normal_base rfl]
    · exact settled_real _
    all_goals simp
  have bare : (wrap (.number x)).soleSum? = none := by
    rw [Option.eq_none_iff_forall_ne_some]
    intro ts sole
    obtain ⟨-, e, -, factors, -⟩ := soleSum?_eq_some.1 sole
    cases sides.1.symm.trans factors
  have vacuous : ∀ {P : Factor (Node α) → Prop}, ∀ f ∈ (wrap (.number x)).realParts, P f := by
    intro P
    rw [realParts, sides.1, sides.2]
    exact List.forall_mem_nil _
  have normal : (wrap (.number x)).Normal := normal_normal 1 1 [⟨.number x, .number 1⟩] []
  have settled : (wrap (.number x)).Settled := ⟨⟨normal.lasting vacuous, vacuous⟩, bare, vacuous⟩
  rw [Node.summands_eq (n := .number x) (by simp) rfl bare]
  exact List.forall_mem_singleton.2 settled

/-- A power whose exponent is not one, also when it crosses the bar, contributes one term. -/
theorem power_summands {g : Factor (Node α)} (h : (Node.power g).Meets Demand.reduced)
    (upright : ∀ x, g.exponent = .number x → Scalar.lt x 0 = true → (-x == 1) = false) :
    ∀ u ∈ (Node.power g).summands, u.Settled := by
  have other := (Node.meets_power.1 h).1.1
  have bare := normal_power_bare other upright
  have whole : g.exponent.isUnit = true → g.base.isSpliced = false :=
    fun unit => absurd unit (Bool.eq_false_iff.1 other)
  have dissolved : (normal 1 1 [g] []).Dissolved := by
    refine (dissolved_normal_iff 1 1 [g] []).2 (List.forall_mem_singleton.2 fun inverts => ?_)
    obtain ⟨x, number, negative, unit, -⟩ := inverts_of_whole whole inverts
    rw [upright x number negative] at unit
    cases unit
  have factors : ∀ f ∈ [g] ++ [], f.Reduced := List.forall_mem_singleton.2 h.asFactor
  have each := normal_reduced 1 1 factors
  have settled : (normal 1 1 [g] []).Settled :=
    ⟨⟨(normal_normal 1 1 [g] []).lasting dissolved, fun f hf => (each f hf).apart⟩, bare,
      fun f hf => (each f hf).parts⟩
  rw [Node.summands_eq (n := .power g) nofun rfl bare]
  exact List.forall_mem_singleton.2 settled

/-- A reduced expression that dissolves contributes terms of a reduced sum, unless it is a base under
the exponent minus one. -/
theorem spliced_summands {n : Node α} (h : n.Meets Demand.reduced) (spliced : n.isSpliced = true)
    (upright : ∀ g x, n = .power g → g.exponent = .number x → Scalar.lt x 0 = true →
      (-x == 1) = false) : ∀ u ∈ n.summands, u.Settled := by
  cases n with
  | product u =>
    obtain ⟨⟨intact, -, several⟩, parts⟩ := Node.meets_product.1 h
    have bare := soleSum?_of_several several
    rw [Node.summands_eq (n := .product u) nofun rfl bare]
    exact List.forall_mem_singleton.2 ⟨intact, bare, parts⟩
  | power g => exact power_summands h fun x => upright g x rfl
  | sum us => exact settled_terms h
  | _ => cases spliced

/-- An exponent of minus one inside would have been multiplied with the one outside. -/
theorem upright_base {f g : Factor (Node α)} (apart : ¬ f.Fuses) (unit : f.isUnit = true)
    (twin : f.base.Twin (.power g)) {x : α} (number : g.exponent = .number x) :
    (-x == 1) = false := by
  by_contra one
  have back : -x = 1 := UnitScalar.eq_one (by simpa using one)
  generalize base : f.base = b at twin
  cases twin with
  | @power g' _ bases exponents =>
    obtain ⟨inner, k⟩ := g'
    rw [number] at exponents
    obtain rfl : k = .number x := exponents.eq_number
    rw [Factor.eq_of_unit unit] at apart
    refine apart ⟨inner, x, 1, base, rfl, ?_, isWhole_one⟩
    rw [← RegularScalar.isWhole_neg, back, isWhole_one]

/-- What a reduced term contributes to a sum. -/
theorem faced_summands (normal : t.Normal) (each : ∀ f ∈ t.realParts, f.Reduced)
    (clear : t.isZero = true ∨ t.Dissolved ∨ ∃ f, t.Sole f) :
    ∀ u ∈ (faced Node.reduce t).summands, u.Settled := by
  have reduced := faced_reduced normal each clear
  cases present : t.isZero with
  | true =>
    rw [faced_of_zero present]
    exact number_summands 0
  | false =>
    by_cases dissolved : t.Dissolved
    · have intact : t.Intact := ⟨normal.lasting dissolved, fun f hf => (each f hf).apart⟩
      cases bare : t.soleSum? with
      | none =>
        obtain ⟨u, single, twin⟩ := (intact.face present (keptBy_reduce each) (.refl _)).summands
          intact present bare
        rw [single]
        exact List.forall_mem_singleton.2
          (twin.settled ⟨intact, bare, fun f hf => (each f hf).parts⟩)
      | some ts =>
        obtain ⟨f, sole, unit, base⟩ := sole_of_soleSum? bare
        obtain ⟨-, twin⟩ := faced_sole normal sole present each
        rw [Factor.shown_of_isUnit unit, base] at twin
        generalize faced Node.reduce t = n at twin reduced
        cases twin with
        | sum => exact settled_terms reduced
    · obtain ⟨f, sole⟩ : ∃ f, t.Sole f := by
        rcases clear with zero | whole | sole
        · rw [present] at zero
          cases zero
        · exact absurd whole dissolved
        · exact sole
      obtain ⟨unit, spliced⟩ : f.isUnit = true ∧ f.base.isSpliced = true := by
        have only : t.realParts = [f] := by
          rw [realParts, sole.factors, sole.divisors]
          rfl
        have clotted : ¬ f.Dissolved := fun whole => dissolved fun g hg =>
          List.mem_singleton.1 (only ▸ hg) ▸ whole
        obtain ⟨unit, spliced⟩ := Classical.not_imp.1 clotted
        exact ⟨unit, by simpa using spliced⟩
      obtain ⟨-, twin⟩ := faced_sole normal sole present each
      rw [Factor.shown_of_isUnit unit] at twin
      refine spliced_summands reduced (twin.isSpliced_eq ▸ spliced) fun g x power number _ => ?_
      exact upright_base (each f sole.mem).apart unit (power ▸ twin) number

end Term

/-! ### Whole expressions -/

namespace Node

/-- What a straight expression is reduced to is reduced. -/
theorem Straight.reduced {n : Node α} (straight : n.Straight) (filled : n.Filled) :
    n.reduce.Meets Demand.reduced := by
  have factors : ∀ {t : Term α (Node α)}, (∀ f ∈ t.realParts, f.Meets Demand.straight) →
      (∀ f ∈ t.realParts, f.Meets Demand.filled) →
      (∀ f ∈ t.realParts, (f.base.Straight → f.base.Filled → f.base.reduce.Meets Demand.reduced) ∧
        (f.exponent.Straight → f.exponent.Filled → f.exponent.reduce.Meets Demand.reduced)) →
          ∀ f ∈ (t.reducedParts Node.reduce).realParts, f.Reduced := by
    intro t inside filled parts
    have each : ∀ f ∈ t.realParts, (reduceFactor Node.reduce f).asFactor.Reduced := by
      intro f hf
      exact Factor.reduced_asFactor ((parts f hf).1 (inside f hf).base (filled f hf).base)
        ((parts f hf).2 (inside f hf).exponent (filled f hf).exponent)
    obtain ⟨above, below⟩ := Term.forall_realParts.1 each
    refine Term.normal_reduced _ _ (List.forall_mem_append.2 ⟨?_, ?_⟩)
    · exact List.forall_mem_map.2 (List.forall_mem_map.2 above)
    · exact List.forall_mem_map.2 (List.forall_mem_map.2 below)
  have normal : ∀ t : Term α (Node α), (t.reducedParts Node.reduce).Normal :=
    fun t => Term.normal_normal _ _ _ _
  induction n using induction_parts with
  | number x => exact .number x trivial
  | constant c negative => exact .constant c negative
  | var v negative => exact .var v negative
  | power f base exponent =>
    obtain ⟨own, parts⟩ := meets_power.1 straight
    obtain ⟨-, inner⟩ := meets_power.1 filled
    rw [reduce_power filled]
    exact Factor.Straight.reduced own (base parts.base inner.base)
      (exponent parts.exponent inner.exponent)
  | product t parts =>
    obtain ⟨own, inside⟩ := meets_product.1 straight
    have each := factors inside (meets_product.1 filled).2 parts
    rw [reduce_product filled, Term.reduceTerm_eq]
    exact Term.faced_reduced (normal t) each own
  | sum ts parts =>
    obtain ⟨⟨terms, keeps⟩, inside⟩ := meets_sum.1 straight
    obtain ⟨some, inner⟩ := meets_sum.1 filled
    have each : ∀ t ∈ ts, ∀ f ∈ (t.reducedParts Node.reduce).realParts, f.Reduced :=
      fun t ht => factors (inside t ht) (inner t ht) (parts t ht)
    by_cases single : ts.length = 1
    · obtain ⟨t, rfl⟩ := List.length_eq_one_iff.1 single
      have member : t ∈ [t] := List.mem_cons_self
      rw [reduce_single filled, Term.reduceTerm_eq]
      exact Term.faced_reduced (normal t) (each t member) (terms t member)
    · have several := keeps single
      have settled : ∀ u ∈ flattened (ts.map (reduceTerm Node.reduce)),
          u.Settled ∧ u.isZero = false := by
        intro u hu
        rcases mem_flattened hu with ⟨zero, -⟩ | ⟨⟨n, hn, member⟩, present⟩
        · have counts := (flattened_perm (ts.map (reduceTerm Node.reduce))).length_eq
          rw [zero] at counts
          exact absurd counts several
        · obtain ⟨t, ht, rfl⟩ := List.mem_map.1 hn
          rw [Term.reduceTerm_eq] at member
          exact ⟨Term.faced_summands (normal t) (each t ht) (terms t ht) u member, present⟩
      rw [reduce_sum single filled]
      refine meets_sum.2 ⟨⟨⟨flattened_ne_nil _, several⟩, fun u hu => ?_⟩, fun u hu => ?_⟩
      · obtain ⟨⟨intact, bare, -⟩, present⟩ := settled u hu
        exact ⟨intact, present, bare⟩
      · exact (settled u hu).1.parts
  | unary f x argument =>
    have inner := meets_unary.1 filled
    rw [reduce_unary inner]
    exact .unary f _ (argument (meets_unary.1 straight) inner)
  | binary f x y left right =>
    obtain ⟨first, second⟩ := meets_binary.1 straight
    obtain ⟨above, below⟩ := meets_binary.1 filled
    rw [reduce_binary above below]
    exact .binary f _ _ (left first above) (right second below)

omit [RegularScalar α] in
/-- The tree that symbols in postfix order write has no empty sums. -/
theorem filled_toNode {postfixed : List Symbol} {n : Node α}
    (built : Postfix.toNode postfixed = .ok n) : n.Filled :=
  Postfix.carry_tree (Q := fun _ => Filled)
    (fun _ _ => ⟨fun c _ => .constant c false, fun v _ _ => .var v false⟩)
    (Postfix.raising_of_uniform postfixed) n built

/-- A straight expression is reduced to one that comes back as its twin when it is reduced again, so
as the same kind of node, and that is equal to it if its numbers compare. What a text writes is
the reduced form of the tree that its symbols make, and so stays as it is if this tree is
straight. -/
theorem reduce_idempotent [PartialEquivBEq α] :
    (∀ m : Node α, m.Filled → m.Straight → m.reduce.Twin m.reduce.reduce ∧
      (m.reduce.Comparable → m.reduce.reduce.same m.reduce = true)) ∧
    ∀ (settings : ParserSettings) (text : String) (n : Node α), settings.parse text = .ok n →
      ∃ symbols postfixed, ∃ m : Node α, settings.symbols text = .ok symbols ∧
        Postfix.ofInfix settings.brackets settings.maxDepth symbols = .ok postfixed ∧
        Postfix.toNode postfixed = .ok m ∧ n = m.reduce ∧
        (m.Straight → n.Twin n.reduce ∧ (n.Comparable → n.reduce.same n = true)) := by
  have once : ∀ m : Node α, m.Filled → m.Straight → m.reduce.Twin m.reduce.reduce ∧
      (m.reduce.Comparable → m.reduce.reduce.same m.reduce = true) := by
    intro m filled straight
    have twin := reduce_twin (straight.reduced filled) (.refl m.reduce)
    refine ⟨twin, fun comparable => ?_⟩
    exact same_equivalence.symm _ _ comparable (twin.comparable comparable) (twin.same comparable)
  refine ⟨once, fun settings text n parsed => ?_⟩
  obtain ⟨symbols, lexed, rest⟩ := bind_eq_ok.1 parsed
  obtain ⟨postfixed, ordered, rest⟩ := bind_eq_ok.1 rest
  obtain ⟨m, built, rest⟩ := bind_eq_ok.1 rest
  cases rest
  exact ⟨symbols, postfixed, m, lexed, ordered, built, rfl, once m (filled_toNode built)⟩

end Node

end Regular

instance : RegularScalar ℚ where
  one_beq_zero := rfl
  eq_neg_one := eq_of_beq
  isOdd_one := rfl
  one_mul := one_mul
  power_one x := by
    show (if (1 : ℚ).den = 1 then x ^ (1 : ℚ).num else 0) = x
    exact zpow_one x
  isWhole_neg _ := rfl

/-- A whole power of a square over another variable, and a power of a call that a text writes. -/
theorem Node.reduce_idempotent_fraction :
    let x : Node ℚ := .var ⟨'x', 0⟩ false
    let y : Node ℚ := .var ⟨'y', 0⟩ false
    let m : Node ℚ := .product ⟨2, 3, [⟨.power ⟨x, .number 2⟩, .number 3⟩], [⟨y, .number 1⟩]⟩
    let n : Node ℚ := .power ⟨.unary .sin (.power ⟨x, .number 2⟩), y⟩
    (m.Filled ∧ m.Straight ∧ m.reduce.reduce.same m.reduce = true) ∧
      ({} : ParserSettings).parse "sin(x^2)^y" = .ok n ∧ n.Straight ∧ n.reduce.same n = true := by
  intro x y m n
  obtain ⟨once, read⟩ := reduce_idempotent (α := ℚ)
  have square : (Node.power ⟨x, .number 2⟩).Straight := by
    refine .power _ ?_ (.var _ _) (.number _ trivial)
    rintro inner z w ⟨⟩
  have written : n.Straight := by
    refine .power _ ?_ (.unary _ _ square) (.var _ _)
    rintro inner z w ⟨⟩
  constructor
  · let t : Term ℚ (Node ℚ) := ⟨2, 3, [⟨.power ⟨x, .number 2⟩, .number 3⟩], [⟨y, .number 1⟩]⟩
    have parts : t.realParts = [⟨.power ⟨x, .number 2⟩, .number 3⟩, ⟨y, .number 1⟩] := by
      with_unfolding_all rfl
    have filled : m.Filled := by
      refine meets_product.2 ⟨trivial, ?_⟩
      rw [parts]
      refine List.forall_mem_cons.2 ⟨⟨?_, .number _ trivial⟩, List.forall_mem_singleton.2 ?_⟩
      · exact .power _ trivial (.var _ _) (.number _ trivial)
      · exact ⟨.var _ _, .number _ trivial⟩
    have straight : m.Straight := by
      refine meets_product.2 ⟨.inr (.inl ?_), ?_⟩
      · have reduced : t.reducedParts Node.reduce =
            Term.normal 2 3 [⟨x, .number 6⟩] [⟨y, .number 1⟩] := by
          have above : t.realFactors.map (reduceFactor Node.reduce) = [.power ⟨x, .number 6⟩] := by
            with_unfolding_all rfl
          have below : t.realDivisors.map (reduceFactor Node.reduce) = [y] := by
            with_unfolding_all rfl
          rw [Term.reducedParts, above, below]
          rfl
        rw [reduced, Term.dissolved_normal_iff]
        refine List.forall_mem_cons.2 ⟨?_, List.forall_mem_singleton.2 ?_⟩
        · exact Term.not_inverts_of_whole rfl
        · exact Term.not_inverts_of_whole rfl
      · rw [parts]
        exact List.forall_mem_cons.2 ⟨⟨square, .number _ trivial⟩,
          List.forall_mem_singleton.2 ⟨.var _ _, .number _ trivial⟩⟩
    exact ⟨filled, straight, (once m filled straight).2 (comparable _)⟩
  · let symbols : List Symbol := ["sin", "(", "x", "^", "2", ")", "^", "y"].map Symbol.mk
    let postfixed : List Symbol := ["x", "2", "^", "sin", "y", "^"].map Symbol.mk
    have lexed : ({} : ParserSettings).symbols "sin(x^2)^y" = .ok symbols := by decide +kernel
    have ordered : Postfix.ofInfix ({} : ParserSettings).brackets ({} : ParserSettings).maxDepth
        symbols =
        .ok postfixed := by decide +kernel
    have built : (Postfix.toNode postfixed : Checked (Node ℚ)) = .ok n := by with_unfolding_all rfl
    have parsed : ({} : ParserSettings).parse "sin(x^2)^y" = .ok n := by
      refine bind_eq_ok.2 ⟨symbols, lexed, bind_eq_ok.2 ⟨postfixed, ordered,
        bind_eq_ok.2 ⟨n, built, ?_⟩⟩⟩
      with_unfolding_all rfl
    obtain ⟨symbols', postfixed', tree, lexed', ordered', built', -, again⟩ := read {} _ n parsed
    cases lexed.symm.trans lexed'
    cases ordered.symm.trans ordered'
    cases built.symm.trans built'
    exact ⟨parsed, written, (again written).2 (comparable _)⟩

/-- The inverse of an inverse is reduced to a power under the exponent one, and this to its base. -/
theorem Node.not_reduce_idempotent_inverse :
    let x : Node ℚ := .var ⟨'x', 0⟩ false
    let m : Node ℚ := .power ⟨.power ⟨x, .number (-1)⟩, .number (-1)⟩
    m.Filled ∧ m.reduce = .power ⟨x, .number 1⟩ ∧ m.reduce.reduce = x ∧
      m.reduce.reduce.same m.reduce = false := by
  intro x m
  have first : m.reduce = .power ⟨x, .number 1⟩ := by with_unfolding_all rfl
  have second : (Node.power ⟨x, .number 1⟩).reduce = x := by with_unfolding_all rfl
  refine ⟨?_, first, by rw [first, second], by rw [first, second]; rfl⟩
  exact .power _ trivial (.power _ trivial (.var _ _) (.number _ trivial)) (.number _ trivial)

end SymbolicAlgebra
