/-
  Reduced expressions
  ===================
  What it takes for an expression to be reduced: no power has the exponent zero or one
  or is a whole power of a whole power, no term stands for anything plainer, and a sum
  has more than one term (`Demand.reduced`). Reducing such an expression, or a twin of
  it, gives a twin of it again: **`Node.reduce_twin`**.

  A term whose factors stay as they are comes down to one of a few forms
  (`Term.Face`), each of which contributes just this term when it is a summand.
-/
import SymbolicAlgebra.Proofs.Lasting.Clone
import SymbolicAlgebra.Proofs.Lasting.Height

namespace SymbolicAlgebra

/-- Scalars in which minus one is equal to nothing else, and one is odd and the unit of products and
exponents. -/
class RegularScalar (α : Type) [Scalar α] : Prop extends UnitScalar α where
  one_beq_zero : ((1 : α) == 0) = false
  eq_neg_one : ∀ {x : α}, (x == -1) = true → x = -1
  isOdd_one : Scalar.isOdd (1 : α) = true
  one_mul : ∀ x : α, 1 * x = x
  power_one : ∀ x : α, Scalar.power x 1 = x
  isWhole_neg : ∀ x : α, Scalar.isWhole (-x) = Scalar.isWhole x

variable {α : Type} [Scalar α]

/-! ### Factors -/

namespace Factor

/-- A whole power of a whole power, which reducing makes one power. -/
def Fuses (f : Factor (Node α)) : Prop := ∃ inner x y, f.base = .power ⟨inner, .number x⟩ ∧
  f.exponent = .number y ∧ Scalar.isWhole x = true ∧ Scalar.isWhole y = true

/-- Once its parts are reduced, the factor reduces to its node. -/
structure Intact (f : Factor (Node α)) : Prop where
  present : ∀ x, f.exponent = .number x → (x == 0) = false
  apart : ¬ f.Fuses

variable {f g : Factor (Node α)}

theorem raised_of_apart {b e : Node α} (apart : ¬ Fuses ⟨b, e⟩) : raised b e = ⟨b, e⟩ := by
  unfold raised
  split
  · rename_i inner x y
    rw [if_neg]
    intro whole
    exact apart ⟨inner, x, y, rfl, rfl, Bool.and_eq_true_iff.1 whole⟩
  · rfl

theorem Intact.reduceFactor_eq {reduce : Node α → Node α}
    (h : Intact ⟨reduce f.base, reduce f.exponent⟩) :
    Node.reduceFactor reduce f = shown ⟨reduce f.base, reduce f.exponent⟩ := by
  obtain ⟨present, apart⟩ := h
  unfold Node.reduceFactor
  dsimp only at present ⊢
  generalize reduce f.exponent = e at present apart
  cases e with
  | number x =>
    dsimp only
    rw [present x rfl, if_neg (by simp)]
    by_cases unit : (x == 1) = true
    · rw [if_pos unit]
      exact (if_pos unit).symm
    · rw [if_neg unit, raised_of_apart apart]
      exact (if_neg unit).symm
  | _ => exact congrArg Node.power (raised_of_apart apart)

/-! ### Twins -/

theorem Twin.fuses (h : f.Twin g) (fuses : g.Fuses) : f.Fuses := by
  obtain ⟨b, e⟩ := f
  obtain ⟨base, exponent⟩ := twin_iff.1 h
  obtain ⟨inner, x, y, power, number, whole⟩ := fuses
  dsimp only at base exponent
  rw [power] at base
  rw [number] at exponent
  cases base with
  | @power f _ _ exponents =>
    obtain ⟨inner, k⟩ := f
    obtain rfl : k = .number x := exponents.eq_number
    exact ⟨inner, x, y, rfl, exponent.eq_number, whole⟩

theorem Twin.intact (h : f.Twin g) (intact : f.Intact) : g.Intact where
  present x number := by
    have exponent := (twin_iff.1 h).2
    rw [number] at exponent
    exact intact.present x exponent.eq_number
  apart fuses := intact.apart (h.fuses fuses)

theorem Twin.shown (h : f.Twin g) : f.shown.Twin g.shown := by
  cases unit : f.isUnit with
  | true =>
    rw [shown_of_isUnit unit, shown_of_isUnit (h.isUnit_eq.symm.trans unit)]
    exact (twin_iff.1 h).1
  | false =>
    rw [shown_of_other unit, shown_of_other (h.isUnit_eq.symm.trans unit)]
    exact h

/-- A factor under the plain exponent one is its base under that exponent. -/
theorem eq_of_unit [UnitScalar α] (unit : f.isUnit = true) : f = ⟨f.base, .number 1⟩ := by
  obtain ⟨b, e⟩ := f
  cases e with
  | number x => rw [UnitScalar.eq_one (show (x == 1) = true from unit)]
  | _ => cases unit

/-- What is a twin of the node of a dissolved factor is a twin of the factor when it is taken as
one. -/
theorem Dissolved.asFactor_twin [UnitScalar α] (h : f.Dissolved) {n : Node α} (twin : f.shown.Twin n) :
    f.Twin n.asFactor := by
  cases unit : f.isUnit with
  | true =>
    rw [shown_of_isUnit unit] at twin
    have whole := h unit
    rw [twin.isSpliced_eq] at whole
    rw [eq_of_unit unit, Node.asFactor_of_whole whole]
    exact twin_iff.2 ⟨twin, .refl _⟩
  | false =>
    rw [shown_of_other unit] at twin
    cases twin with
    | power base exponent => exact twin_iff.2 ⟨base, exponent⟩

end Factor

/-! ### Terms -/

namespace Term

/-- The term of the factors as they reduce. -/
def reducedParts (reduce : Node α → Node α) (t : Term α (Node α)) : Term α (Node α) :=
  ofNodes t.numerator t.denominator (t.realFactors.map (Node.reduceFactor reduce))
    (t.realDivisors.map (Node.reduceFactor reduce))

/-- What the coefficient makes of the only factor. -/
def facedSole (t : Term α (Node α)) (only : Node α) : Node α :=
  if t.numerator == 1 then only
  else if t.numerator == -1 then
    match only with
    | .var v negative => .var v !negative
    | .constant c negative => .constant c !negative
    | _ => .product t
  else .product t

/-- What a term whose factors are reduced comes down to. -/
def faced (reduce : Node α → Node α) (t : Term α (Node α)) : Node α :=
  if t.isZero then .number 0
  else if t.denominator == 1 && t.realDivisors.isEmpty then
    match t.realFactors with
    | [] => Node.ofValue t.numerator
    | [f] => facedSole t (Node.reduceFactor reduce f)
    | _ => .product t
  else .product t

theorem faced_of_zero {reduce : Node α → Node α} {t : Term α (Node α)} (zero : t.isZero = true) :
    faced reduce t = .number 0 := if_pos zero

theorem reduceTerm_eq (reduce : Node α → Node α) (t : Term α (Node α)) :
    Node.reduceTerm reduce t = faced reduce (reducedParts reduce t) := rfl

/-- The factors of the term stay as they are, and none fuses. -/
structure Intact (t : Term α (Node α)) : Prop where
  lasting : t.Lasting
  apart : ∀ f ∈ t.realParts, ¬ f.Fuses

/-- Reducing the twins of the parts of the factors gives twins again. -/
def KeptBy (reduce : Node α → Node α) (t : Term α (Node α)) : Prop :=
  ∀ f ∈ t.realParts, ∀ g : Factor (Node α), f.Twin g →
    f.base.Twin (reduce g.base) ∧ f.exponent.Twin (reduce g.exponent)

/-- The coefficient is one, and there is one factor and no divisor. -/
structure Sole (t : Term α (Node α)) (f : Factor (Node α)) : Prop where
  factors : t.realFactors = [f]
  divisors : t.realDivisors = []
  numerator : (t.numerator == 1) = true
  denominator : (t.denominator == 1) = true

/-- A variable or a constant without its sign, taken minus once. -/
structure Opposed (t : Term α (Node α)) (n : Node α) : Prop where
  factors : ∃ f, t.realFactors = [f] ∧ f.isUnit = true ∧ f.base = n
  divisors : t.realDivisors = []
  numerator : (t.numerator == -1) = true
  denominator : (t.denominator == 1) = true

/-- The term stands for a node that is no term. -/
inductive Plain (t : Term α (Node α)) : Prop
  | number (factors : t.realFactors = []) (divisors : t.realDivisors = [])
      (denominator : (t.denominator == 1) = true)
  | factor {f : Factor (Node α)} (sole : t.Sole f)
  | var {v : Variable} {negative : Bool} (opposed : t.Opposed (.var v negative))
  | constant {c : Constant} {negative : Bool} (opposed : t.Opposed (.constant c negative))

/-- What a term comes down to. -/
inductive Face (t : Term α (Node α)) : Node α → Prop
  | product {u : Term α (Node α)} (twin : t.Twin u) (several : ¬ t.Plain) : Face t (.product u)
  | number (factors : t.realFactors = []) (divisors : t.realDivisors = [])
      (denominator : (t.denominator == 1) = true) : Face t (Node.ofValue t.numerator)
  | factor {f : Factor (Node α)} {n : Node α} (sole : t.Sole f) (twin : f.shown.Twin n) : Face t n
  | var {v : Variable} {negative : Bool} (opposed : t.Opposed (.var v negative)) :
      Face t (.var v !negative)
  | constant {c : Constant} {negative : Bool} (opposed : t.Opposed (.constant c negative)) :
      Face t (.constant c !negative)

variable {t u : Term α (Node α)} {reduce : Node α → Node α}

theorem Intact.factor (h : t.Intact) {f : Factor (Node α)} (member : f ∈ t.realParts) : f.Intact where
  present x number := by
    have real := (h.lasting.factors f member).normal.real
    rw [number] at real
    exact real
  apart := h.apart f member

theorem faced_of_sole (present : t.isZero = false) {f : Factor (Node α)} (sole : t.Sole f) :
    faced reduce t = Node.reduceFactor reduce f := by
  unfold faced
  rw [present, sole.denominator, sole.divisors, sole.factors]
  exact if_pos sole.numerator

theorem KeptBy.shown (h : t.Intact) (kept : t.KeptBy reduce) {f g : Factor (Node α)}
    (member : f ∈ t.realParts) (twin : f.Twin g) : f.shown.Twin (Node.reduceFactor reduce g) := by
  obtain ⟨base, exponent⟩ := kept f member g twin
  have parts : f.Twin ⟨reduce g.base, reduce g.exponent⟩ := Factor.twin_iff.2 ⟨base, exponent⟩
  rw [(parts.intact (h.factor member)).reduceFactor_eq]
  exact parts.shown

/-- Built of the factors as they reduce, the term is a twin of what it was. -/
theorem Intact.reducedParts_twin [UnitScalar α] (h : t.Intact) (kept : t.KeptBy reduce)
    (twin : t.Twin u) : t.Twin (u.reducedParts reduce) := by
  obtain ⟨⟨numerator, denominator⟩, factors, divisors⟩ := twin_iff.1 twin
  have listed : ∀ {fs gs : List (Factor (Node α))}, (∀ f ∈ fs, f ∈ t.realParts) →
      List.Forall₂ Factor.Twin fs gs →
        List.Forall₂ Factor.Twin fs ((gs.map (Node.reduceFactor reduce)).map Node.asFactor) := by
    intro fs gs inside twins
    induction twins with
    | nil => exact .nil
    | cons first _ ih =>
      obtain ⟨member, rest⟩ := List.forall_mem_cons.1 inside
      have dissolved := (h.lasting.factors _ member).dissolved
      exact .cons (dissolved.asFactor_twin (kept.shown h member first)) (ih rest)
  rw [reducedParts, ofNodes, ← numerator, ← denominator]
  exact h.lasting.twin_normal (listed (fun f hf => List.mem_append_left _ hf) factors)
    (listed (fun f hf => List.mem_append_right _ hf) divisors)

theorem Plain.narrow (h : t.Plain) : (t.denominator == 1) = true ∧ t.realDivisors = [] ∧
    t.realFactors.length ≤ 1 := by
  cases h with
  | number factors divisors denominator => exact ⟨denominator, divisors, by simp [factors]⟩
  | factor sole => exact ⟨sole.denominator, sole.divisors, by simp [sole.factors]⟩
  | var opposed | constant opposed =>
    obtain ⟨f, factors, -⟩ := opposed.factors
    exact ⟨opposed.denominator, opposed.divisors, by simp [factors]⟩

/-- A single factor without divisors that comes down to a twin of its node. -/
theorem Twin.face_sole (twin : t.Twin u) {f : Factor (Node α)} (factors : t.realFactors = [f])
    (divisors : t.realDivisors = []) (whole : (t.denominator == 1) = true) {n : Node α}
    (only : f.shown.Twin n) : t.Face (u.facedSole n) := by
  have opposed : (t.numerator == -1) = true → ∀ m : Node α, f.shown = m →
      (∀ g, m ≠ .power g) → t.Opposed m := by
    rintro minus _ rfl bare
    refine ⟨⟨f, factors, ?_⟩, divisors, minus, whole⟩
    cases unit : f.isUnit with
    | true => exact ⟨rfl, (Factor.shown_of_isUnit unit).symm⟩
    | false => exact absurd (Factor.shown_of_other unit) (bare f)
  have itself : ∀ m, t.Opposed m → m.Twin n := by
    rintro m opposed
    obtain ⟨f', listed, unit, base⟩ := opposed.factors
    obtain rfl := List.singleton_inj.1 (factors.symm.trans listed)
    rw [Factor.shown_of_isUnit unit, base] at only
    exact only
  unfold facedSole
  rw [← (twin_iff.1 twin).1.1]
  by_cases one : (t.numerator == 1) = true
  · rw [if_pos one]
    exact .factor ⟨factors, divisors, one, whole⟩ only
  rw [if_neg one]
  by_cases minus : (t.numerator == -1) = true
  · rw [if_pos minus]
    split
    · exact .var (opposed minus _ only.eq_var nofun)
    · exact .constant (opposed minus _ only.eq_constant nofun)
    · rename_i var constant
      refine .product twin fun plain => ?_
      cases plain with
      | number empty => cases factors.symm.trans empty
      | factor sole => exact one sole.numerator
      | var opposed =>
        cases itself _ opposed
        exact var _ _ rfl
      | constant opposed =>
        cases itself _ opposed
        exact constant _ _ rfl
  · rw [if_neg minus]
    refine .product twin fun plain => ?_
    cases plain with
    | number empty => cases factors.symm.trans empty
    | factor sole => exact one sole.numerator
    | var opposed | constant opposed => exact minus opposed.numerator

/-- A term whose factors stay as they are comes down to its face. -/
theorem Intact.face (h : t.Intact) (present : t.isZero = false) (kept : t.KeptBy reduce)
    (twin : t.Twin u) : t.Face (faced reduce u) := by
  obtain ⟨⟨numerator, denominator⟩, factors, divisors⟩ := twin_iff.1 twin
  have empty : u.realDivisors.isEmpty = t.realDivisors.isEmpty := by
    have counts := divisors.length_eq
    rw [Bool.eq_iff_iff, List.isEmpty_iff_length_eq_zero, List.isEmpty_iff_length_eq_zero, counts]
  unfold faced
  rw [← twin.isZero_eq, present, if_neg (by simp), ← denominator, empty]
  split
  · rename_i whole
    obtain ⟨whole, empty⟩ := Bool.and_eq_true_iff.1 whole
    have none : t.realDivisors = [] := List.isEmpty_iff.1 empty
    cases fs : t.realFactors with
    | nil =>
      rw [fs] at factors
      rw [List.forall₂_nil_left_iff.1 factors, ← numerator]
      exact .number fs none whole
    | cons f rest =>
      rw [fs] at factors
      obtain ⟨g, others, first, later, same⟩ := List.forall₂_cons_left_iff.1 factors
      rw [same]
      cases rest with
      | nil =>
        obtain rfl := List.forall₂_nil_left_iff.1 later
        have only := kept.shown h (List.mem_append_left _ (fs ▸ List.mem_cons_self)) first
        exact twin.face_sole fs none whole only
      | cons f' rest =>
        obtain ⟨g', others, -, -, rfl⟩ := List.forall₂_cons_left_iff.1 later
        refine .product twin fun plain => ?_
        have short := plain.narrow.2.2
        rw [fs] at short
        simp at short
  · rename_i divided
    refine .product twin fun plain => divided ?_
    rw [plain.narrow.1, plain.narrow.2.1]
    rfl

/-! ### Summands -/

/-- What a node by itself contributes. -/
theorem summands_of_whole {n : Node α} (product : ∀ t, n ≠ .product t) (sum : ∀ ts, n ≠ .sum ts)
    (twin : t.Twin (normal 1 1 [n.asFactor] [])) (bare : t.soleSum? = none) :
    ∃ u, n.summands = [u] ∧ t.Twin u := by
  have wrapped : wrap n = normal 1 1 [n.asFactor] [] := by
    unfold wrap
    split
    · exact absurd rfl (product _)
    · exact absurd rfl (sum _)
    · rfl
  exact ⟨_, Node.summands_eq sum wrapped (twin.plain bare), twin⟩

/-- A term that is nothing but a coefficient and factors without signs is the one built of them. -/
theorem twin_settled {n d : α} {fs : List (Factor (Node α))} (numerator : t.numerator = n)
    (denominator : t.denominator = d) (factors : t.realFactors = SymbolicAlgebra.realFactors fs)
    (divisors : t.realDivisors = []) (positive : Scalar.lt d 0 = false) :
    t.Twin (settled ⟨n, d, fs, []⟩) := by
  obtain ⟨above, below⟩ := settled_coefficient (t := ⟨n, d, fs, []⟩) positive
  obtain ⟨upper, lower⟩ := settled_real (⟨n, d, fs, []⟩ : Term α (Node α))
  refine twin_iff.2 ⟨⟨numerator.trans above.symm, denominator.trans below.symm⟩, ?_, ?_⟩
  · rw [upper, factors]
    exact List.forall₂_same.2 fun f _ => .refl _
  · rw [lower, divisors]
    exact .nil

theorem Sole.mem {f : Factor (Node α)} (sole : t.Sole f) : f ∈ t.realParts :=
  List.mem_append_left _ (sole.factors ▸ List.mem_cons_self)

/-- A sum in brackets alone is the only factor. -/
theorem sole_of_soleSum? {ts : List (Term α (Node α))} (some : t.soleSum? = .some ts) :
    ∃ f : Factor (Node α), t.Sole f ∧ f.isUnit = true ∧ f.base = .sum ts := by
  obtain ⟨⟨numerator, denominator⟩, e, unit, factors, divisors⟩ := soleSum?_eq_some.1 some
  exact ⟨⟨.sum ts, e⟩, ⟨factors, divisors, numerator, denominator⟩, unit, rfl⟩

theorem soleSum?_of_several (several : ¬ t.Plain) : t.soleSum? = none := by
  rw [Option.eq_none_iff_forall_ne_some]
  intro ts some
  obtain ⟨f, sole, -⟩ := sole_of_soleSum? some
  exact several (.factor sole)

theorem soleSum?_of_sole {f : Factor (Node α)} (sole : t.Sole f) (unit : f.isUnit = true)
    {ts : List (Term α (Node α))} (sum : f.base = .sum ts) : t.soleSum? = some ts := by
  obtain ⟨b, e⟩ := f
  obtain rfl : b = .sum ts := sum
  exact soleSum?_eq_some.2 ⟨⟨sole.numerator, sole.denominator⟩, e, unit, sole.factors, sole.divisors⟩

section Summands

variable [RegularScalar α]

theorem normal_base {b : Node α} (whole : b.isSpliced = false) :
    normal 1 1 [⟨b, .number 1⟩] [] = (multiplyBy ⟨1, 1, [], []⟩ true ⟨b, .number 1⟩).settled :=
  normal_alone RegularScalar.one_beq_zero UnitScalar.one_lt_zero whole 1 1

theorem isWhole_one : Scalar.isWhole (1 : α) = true :=
  (Bool.and_eq_true_iff.1 RegularScalar.isOdd_one).1

omit [RegularScalar α] in
theorem Opposed.normal [UnitScalar α] (h : t.Intact) {m : Node α} (opposed : t.Opposed m) :
    (Factor.mk m (.number 1)).Normal := by
  obtain ⟨f, listed, unit, rfl⟩ := opposed.factors
  rw [← Factor.eq_of_unit unit]
  exact (h.lasting.factors f (List.mem_append_left _ (listed ▸ List.mem_cons_self))).normal

/-- A node that multiplies as minus another contributes the term that is minus the other. -/
theorem Opposed.summands {m n : Node α} (opposed : t.Opposed m) (whole : n.isSpliced = false)
    (product : ∀ t, n ≠ .product t) (sum : ∀ ts, n ≠ .sum ts)
    (turned : multiplyBy (⟨1, 1, [], []⟩ : Term α (Node α)) true ⟨n, .number 1⟩ =
      ⟨-1, 1, [⟨m, .number 1⟩], []⟩) (bare : t.soleSum? = none) :
    ∃ u, n.summands = [u] ∧ t.Twin u := by
  obtain ⟨f, listed, unit, rfl⟩ := opposed.factors
  have factors : t.realFactors = SymbolicAlgebra.realFactors [⟨f.base, .number 1⟩] := by
    rw [← Factor.eq_of_unit unit, ← listed]
    exact (realFactors_idem t.factors).symm
  refine summands_of_whole product sum ?_ bare
  rw [Node.asFactor_of_whole whole, normal_base whole, turned]
  exact twin_settled (RegularScalar.eq_neg_one opposed.numerator)
    (UnitScalar.eq_one opposed.denominator) factors opposed.divisors UnitScalar.one_lt_zero

/-- The face of a term contributes the term, when this is not a sum in brackets and not zero. -/
theorem Face.summands (h : t.Intact) (present : t.isZero = false) (bare : t.soleSum? = none)
    {n : Node α} (face : t.Face n) : ∃ u, n.summands = [u] ∧ t.Twin u := by
  cases face with
  | @product u twin several => exact ⟨u, Node.summands_eq (by simp) rfl (twin.plain bare), twin⟩
  | number factors divisors denominator =>
    have one : t.denominator = 1 := UnitScalar.eq_one denominator
    have some : (t.numerator == 0) = false := by
      rw [isZero_eq, one, factors, RegularScalar.one_beq_zero] at present
      simpa using present
    have value : Node.ofValue t.numerator = .number t.numerator := by
      rw [Node.ofValue, Scalar.unsignedZero, some, if_neg (by simp)]
    rw [value]
    refine summands_of_whole (by simp) (by simp) ?_ bare
    rw [Node.asFactor, normal_base rfl]
    · refine twin_settled ?_ one factors divisors UnitScalar.one_lt_zero
      rw [RegularScalar.one_mul, RegularScalar.power_one]
    · simp
  | @factor f n sole twin =>
    have dissolved := (h.lasting.factors f sole.mem).dissolved
    have built : t.Twin (normal 1 1 [n.asFactor] []) := by
      have factors : List.Forall₂ Factor.Twin t.realFactors [n.asFactor] := by
        rw [sole.factors]
        exact .cons (dissolved.asFactor_twin twin) .nil
      have divisors : List.Forall₂ Factor.Twin t.realDivisors [] := by
        rw [sole.divisors]
        exact .nil
      have twins := h.lasting.twin_normal factors divisors
      rwa [UnitScalar.eq_one sole.numerator, UnitScalar.eq_one sole.denominator] at twins
    cases unit : f.isUnit with
    | true =>
      rw [Factor.shown_of_isUnit unit] at twin
      refine summands_of_whole ?_ ?_ built bare
      · rintro u rfl
        have whole := dissolved unit
        rw [twin.isSpliced_eq] at whole
        cases whole
      · rintro us rfl
        generalize base : f.base = b at twin
        cases twin
        rw [soleSum?_of_sole sole unit base] at bare
        cases bare
    | false =>
      rw [Factor.shown_of_other unit] at twin
      cases twin
      exact summands_of_whole (by simp) (by simp) built bare
  | @var v negative opposed =>
    obtain rfl : negative = false := by
      by_contra signed
      rw [Bool.not_eq_false] at signed
      exact ((opposed.normal h).unsigned 1 rfl isWhole_one).1 v (signed ▸ rfl)
    refine opposed.summands rfl (by simp) (by simp) ?_ bare
    simp [multiplyBy, isWhole_one, RegularScalar.isOdd_one, push]
  | @constant c negative opposed =>
    obtain rfl : negative = false := by
      by_contra signed
      rw [Bool.not_eq_false] at signed
      exact ((opposed.normal h).unsigned 1 rfl isWhole_one).2 c (signed ▸ rfl)
    refine opposed.summands rfl (by simp) (by simp) ?_ bare
    simp [multiplyBy, isWhole_one, RegularScalar.isOdd_one, push]

end Summands

theorem Twin.intact (h : t.Twin u) (intact : t.Intact) : u.Intact := by
  obtain ⟨-, factors, divisors⟩ := twin_iff.1 h
  have apart : ∀ g ∈ u.realParts, ¬ g.Fuses := by
    refine forall_realParts.2 ⟨fun g hg => ?_, fun g hg => ?_⟩
    · obtain ⟨f, hf, twins⟩ := exists_of_forall₂ factors hg
      exact (Factor.Twin.intact twins (intact.factor (List.mem_append_left _ hf))).apart
    · obtain ⟨f, hf, twins⟩ := exists_of_forall₂ divisors hg
      exact (Factor.Twin.intact twins (intact.factor (List.mem_append_right _ hf))).apart
  exact ⟨h.lasting intact.lasting, apart⟩

theorem Face.twin {n : Node α} (face : t.Face n) (several : ¬ t.Plain) : (Node.product t).Twin n := by
  cases face with
  | product twin => exact twin
  | number factors divisors denominator => exact absurd (.number factors divisors denominator) several
  | factor sole => exact absurd (.factor sole) several
  | var opposed => exact absurd (.var opposed) several
  | constant opposed => exact absurd (.constant opposed) several

theorem Twin.ofPlain (h : t.Twin u) (plain : u.Plain) : t.Plain := by
  obtain ⟨⟨numerator, denominator⟩, factors, divisors⟩ := twin_iff.1 h
  have opposed : ∀ {n : Node α}, u.Opposed n → (∀ {m : Node α}, m.Twin n → m = n) →
      t.Opposed n := by
    intro n opposed bare
    obtain ⟨g, listed, unit, rfl⟩ := opposed.factors
    rw [listed] at factors
    rw [opposed.divisors] at divisors
    obtain ⟨f, rest, first, later, same⟩ := List.forall₂_cons_right_iff.1 factors
    obtain rfl := List.forall₂_nil_right_iff.1 later
    refine ⟨⟨f, same, first.isUnit_eq.trans unit, bare (Factor.twin_iff.1 first).1⟩,
      List.forall₂_nil_right_iff.1 divisors, numerator ▸ opposed.numerator,
      denominator ▸ opposed.denominator⟩
  cases plain with
  | number none empty whole =>
    rw [none] at factors
    rw [empty] at divisors
    exact .number (List.forall₂_nil_right_iff.1 factors) (List.forall₂_nil_right_iff.1 divisors)
      (denominator ▸ whole)
  | factor sole =>
    rw [sole.factors] at factors
    rw [sole.divisors] at divisors
    obtain ⟨f, rest, first, later, same⟩ := List.forall₂_cons_right_iff.1 factors
    obtain rfl := List.forall₂_nil_right_iff.1 later
    exact .factor ⟨same, List.forall₂_nil_right_iff.1 divisors, numerator ▸ sole.numerator,
      denominator ▸ sole.denominator⟩
  | var signed => exact .var (opposed signed Node.Twin.eq_var)
  | constant signed => exact .constant (opposed signed Node.Twin.eq_constant)

end Term

/-! ### Whole expressions -/

/-- No power, no term and no sum in the expression can be made plainer. -/
def Demand.reduced : Demand α where
  number _ := True
  power f := f.isUnit = false ∧ f.Intact
  term t := t.Intact ∧ t.isZero = false ∧ ¬ t.Plain
  sum ts := (ts ≠ [] ∧ ts.length ≠ 1) ∧ ∀ t ∈ ts, t.Intact ∧ t.isZero = false ∧ t.soleSum? = none

theorem Demand.reduced_invariant : (Demand.reduced : Demand α).Invariant where
  power twin reduced := ⟨(Factor.Twin.isUnit_eq twin).symm.trans reduced.1, twin.intact reduced.2⟩
  term twin reduced := ⟨twin.intact reduced.1, twin.isZero_eq.symm.trans reduced.2.1,
    fun plain => reduced.2.2 (twin.ofPlain plain)⟩
  sum {ts us} twin reduced := by
    obtain ⟨⟨some, several⟩, each⟩ := reduced
    cases twin with
    | @sum _ _ vs terms order =>
      have counts : ts.length = us.length := terms.length_eq.trans order.length_eq
      refine ⟨⟨?_, counts ▸ several⟩, fun u hu => ?_⟩
      · rintro rfl
        exact some (List.length_eq_zero_iff.1 counts)
      · obtain ⟨t, ht, twins⟩ := exists_of_forall₂ terms (order.mem_iff.2 hu)
        obtain ⟨intact, present, bare⟩ := each t ht
        exact ⟨Term.Twin.intact twins intact, (Term.Twin.isZero_eq twins).symm.trans present,
          Term.Twin.plain twins bare⟩

namespace Node

variable {n : Node α}

theorem Meets.filled (h : n.Meets Demand.reduced) : n.Filled :=
  h.mono (fun _ _ => trivial) (fun _ _ => trivial) (fun _ _ => trivial)
    fun _ (reduced : Demand.reduced.sum _) => reduced.1.1

/-- Reducing the twin of a reduced expression gives a twin of it. -/
theorem reduce_twin [RegularScalar α] (h : n.Meets Demand.reduced) {a : Node α} (twin : n.Twin a) :
    n.Twin a.reduce := by
  have kept : ∀ t : Term α (Node α), (∀ f ∈ t.realParts, f.Meets Demand.reduced) →
      (∀ f ∈ t.realParts, (f.base.Meets Demand.reduced → ∀ {a}, f.base.Twin a → f.base.Twin a.reduce) ∧
        (f.exponent.Meets Demand.reduced → ∀ {a}, f.exponent.Twin a → f.exponent.Twin a.reduce)) →
          t.KeptBy Node.reduce := by
    intro t holds parts f hf g twins
    obtain ⟨base, exponent⟩ := Factor.twin_iff.1 twins
    exact ⟨(parts f hf).1 (holds f hf).base base, (parts f hf).2 (holds f hf).exponent exponent⟩
  have filled : ∀ {n a : Node α}, n.Meets Demand.reduced → n.Twin a → a.Filled :=
    fun h twin => (twin.meets Demand.reduced_invariant h).filled
  induction n using induction_parts generalizing a with
  | number x | constant c negative | var v negative =>
    cases twin
    exact .refl _
  | power f base exponent =>
    cases twin with
    | @power _ g bases exponents =>
      obtain ⟨⟨other, intact⟩, parts⟩ := meets_power.1 h
      have twins : f.Twin ⟨g.base.reduce, g.exponent.reduce⟩ :=
        Factor.twin_iff.2 ⟨base parts.base bases, exponent parts.exponent exponents⟩
      rw [reduce_power (filled h (.power bases exponents)), (twins.intact intact).reduceFactor_eq,
        ← Factor.shown_of_other other]
      exact twins.shown
  | product t parts =>
    cases twin with
    | @product _ u numerator denominator factors divisors =>
      obtain ⟨⟨intact, present, several⟩, holds⟩ := meets_product.1 h
      have same := kept t holds parts
      have twins : t.Twin u := .product numerator denominator factors divisors
      rw [reduce_product (filled h twins), Term.reduceTerm_eq]
      exact (intact.face present same (intact.reducedParts_twin same twins)).twin several
  | sum ts parts =>
    cases twin with
    | @sum _ us vs terms order =>
      obtain ⟨⟨⟨some, several⟩, each⟩, holds⟩ := meets_sum.1 h
      have counts : ts.length = us.length := terms.length_eq.trans order.length_eq
      have contributions : List.Forall₂ (fun t n => ∃ u, summands n = [u] ∧ t.Twin u) ts
          (vs.map (reduceTerm Node.reduce)) := by
        rw [List.forall₂_map_right_iff]
        clear order h counts some several
        induction terms with
        | nil => exact .nil
        | @cons t u ts us first rest ih =>
          obtain ⟨⟨intact, present, bare⟩, later⟩ := List.forall_mem_cons.1 each
          obtain ⟨own, others⟩ := List.forall_mem_cons.1 holds
          obtain ⟨part, remaining⟩ := List.forall_mem_cons.1 parts
          have same := kept t own part
          refine .cons ?_ (ih remaining others later)
          rw [Term.reduceTerm_eq]
          exact (intact.face present same (intact.reducedParts_twin same first)).summands
            intact present bare
      have gathered : Gathered ts :=
        ⟨some, .inl fun t ht => (each t ht).2.1, fun t ht => (each t ht).2.2⟩
      rw [reduce_sum (counts ▸ several) (filled h (.sum terms order))]
      cases flattened_twin contributions gathered with
      | @sum _ _ ws twins arranged =>
        exact .sum twins (arranged.trans (flattened_of_perm (order.map (reduceTerm Node.reduce))))
  | unary f x argument =>
    cases twin with
    | @unary _ _ y arguments =>
      rw [reduce_unary (filled (meets_unary.1 h) arguments)]
      exact .unary f (argument (meets_unary.1 h) arguments)
  | binary f x y left right =>
    cases twin with
    | @binary _ _ _ z w lefts rights =>
      obtain ⟨first, second⟩ := meets_binary.1 h
      rw [reduce_binary (filled first lefts) (filled second rights)]
      exact .binary f (left first lefts) (right second rights)

end Node

end SymbolicAlgebra
