/-
  Polynomials
  ===========
  A polynomial is written without division: its coefficients are integers, its terms have
  nothing below the bar, and its exponents are natural numbers (`Node.Polynomial`). Two
  things are left open, because they change on the way from a text to its expanded form:
  whether powers and whether sums may stand under an exponent. A sum by itself, or as a
  summand, is always allowed.

  What is built from polynomials is one: a term (**`Term.polynomial_normal`**), a product
  of terms, a sum (**`Node.polynomial_flattened`**), the sum of two like terms.

  The integers have to be exact, and no integer has decimals (`WholeScalar`); then a
  coefficient without a denominator never gets one.
-/
import Mathlib.Algebra.Field.Basic
import SymbolicAlgebra.Proofs.Algebra.Overflow
import SymbolicAlgebra.Proofs.CarryOver.Building
import SymbolicAlgebra.Proofs.Value.Rational

namespace SymbolicAlgebra

/-- Exact numbers whose integers have no decimals and are read as they are written. -/
class WholeScalar (α : Type) [FieldScalar α] : Prop extends ExactScalar α where
  places_cast : ∀ z : ℤ, Scalar.places (z : α) = 0
  ofDecimal_cast : ∀ n : ℕ, Scalar.ofDecimal ⟨n, 0⟩ = (n : α)

instance : WholeScalar ℚ where
  places_cast z := if_pos (Rat.den_intCast z)
  ofDecimal_cast n := by
    show (n : ℚ) * 10 ^ (0 : ℤ) = n
    rw [zpow_zero, mul_one]

variable {α : Type} [FieldScalar α]

/-- A natural power of an integer is an integer. -/
theorem ExactScalar.power_natCast [ExactScalar α] (z : ℤ) (k : ℕ) :
    Scalar.power (z : α) (k : α) = ((z ^ k : ℤ) : α) := by
  rw [← Int.cast_natCast, power_cast _ _ fun _ => Int.natCast_nonneg k, zpow_natCast, Int.cast_pow]

/-- An integer over one is in lowest terms. -/
theorem WholeScalar.reduceFraction_one [WholeScalar α] (z : ℤ) :
    Scalar.reduceFraction (z : α) 1 = .ok ((z : α), 1) := by
  have sign : Scalar.lt (1 : α) 0 = false := by
    rw [ExactScalar.lt_zero ExactScalar.isWhole_one, ExactScalar.toInt_one]
    rfl
  have places : Scalar.decimalPlaces (z : α) = 0 := by
    rw [Scalar.decimalPlaces, places_cast, Nat.zero_min]
  have places_one : Scalar.decimalPlaces (1 : α) = 0 := by
    rw [Scalar.decimalPlaces, ← Int.cast_one, places_cast, Nat.zero_min]
  have factor : Scalar.commonFactor (z : α) 1 = 1 := by
    rw [Scalar.commonFactor, if_pos (by simp), ExactScalar.toInt_one, Int.gcd_one,
      if_neg one_ne_zero, ExactScalar.ofInt_cast, Nat.cast_one, Int.cast_one]
  unfold Scalar.reduceFraction
  split
  · rfl
  · rw [if_neg (by simp [sign])]
    dsimp only
    rw [places, places_one, if_neg (by decide), if_pos (by decide), Scalar.lowestTerms, factor,
      div_one, div_one]

/-! ### The shape -/

/-- The node of a polynomial in a place. Inside, under an exponent, a power may stand if powers
may, and a sum if sums may. -/
inductive Node.Polynomial (powers sums : Prop) : Place → Node α → Prop
  | number (p : Place) (z : ℤ) : Polynomial powers sums p (.number (z : α))
  | var (p : Place) (v : Variable) (negative : Bool) : Polynomial powers sums p (.var v negative)
  | power (p : Place) (b : Node α) (k : ℕ) (base : Polynomial powers sums .inside b)
    (allowed : ∀ f, b = .power f → powers) :
    Polynomial powers sums p (.power ⟨b, .number (k : α)⟩)
  | product (p : Place) (z : ℤ) (fs : List (Factor (Node α)))
    (factors : ∀ f ∈ fs, Polynomial powers sums .inside (.power f)) :
    Polynomial powers sums p (.product ⟨z, 1, fs, [Factor.empty]⟩)
  | sum (p : Place) (ts : List (Term α (Node α))) (allowed : p = .inside → sums)
    (terms : ∀ t ∈ ts, Polynomial powers sums .inside (.product t)) :
    Polynomial powers sums p (.sum ts)

/-- The factor of a term of a polynomial. -/
def Factor.Polynomial (P S : Prop) (f : Factor (Node α)) : Prop :=
  (Node.power f).Polynomial P S .inside

/-- The term of a polynomial. -/
def Term.Polynomial (P S : Prop) (t : Term α (Node α)) : Prop :=
  (Node.product t).Polynomial P S .inside

variable {P S : Prop} {p q : Place}

namespace Node

variable {n : Node α}

/-- Only of a sum it matters where it stands. -/
theorem Polynomial.moved (h : n.Polynomial P S p) (other : ∀ ts, n ≠ .sum ts) :
    n.Polynomial P S q := by
  cases h with
  | number _ z => exact .number q z
  | var _ v negative => exact .var q v negative
  | power _ b k base allowed => exact .power q b k base allowed
  | product _ z fs factors => exact .product q z fs factors
  | sum _ ts _ _ => exact absurd rfl (other ts)

/-- What may stand under an exponent may stand anywhere. -/
theorem Polynomial.anywhere (h : n.Polynomial P S .inside) : n.Polynomial P S p := by
  cases p with
  | inside => exact h
  | alone =>
    cases h with
    | sum _ ts _ terms => exact .sum _ ts (by simp) terms
    | _ => exact Polynomial.moved (p := .inside) (by constructor <;> assumption) (by simp)

theorem Polynomial.one : (Node.number 1 : Node α).Polynomial P S p := by
  rw [← Int.cast_one]
  exact .number p 1

theorem Polynomial.zero : (Node.number 0 : Node α).Polynomial P S p := by
  rw [← Int.cast_zero]
  exact .number p 0

theorem polynomial_number {x : α} : (Node.number x).Polynomial P S p ↔ ∃ z : ℤ, x = z := by
  constructor
  · rintro ⟨⟩
    exact ⟨_, rfl⟩
  · rintro ⟨z, rfl⟩
    exact .number p z

theorem polynomial_sum {ts : List (Term α (Node α))} : (Node.sum ts).Polynomial P S p ↔
    (p = .inside → S) ∧ ∀ t ∈ ts, t.Polynomial P S := by
  constructor
  · intro h
    cases h with
    | sum _ _ allowed terms => exact ⟨allowed, terms⟩
  · rintro ⟨allowed, terms⟩
    exact .sum p ts allowed terms

end Node

theorem Factor.polynomial_iff {f : Factor (Node α)} : f.Polynomial P S ↔
    f.base.Polynomial P S .inside ∧ (∀ g, f.base = .power g → P) ∧
      ∃ k : ℕ, f.exponent = .number (k : α) := by
  obtain ⟨b, e⟩ := f
  constructor
  · intro h
    cases h with
    | power _ _ k base allowed => exact ⟨base, allowed, k, rfl⟩
  · rintro ⟨base, allowed, k, rfl⟩
    exact .power .inside b k base allowed

theorem Factor.polynomial_empty : (Factor.empty : Factor (Node α)).Polynomial P S :=
  Factor.polynomial_iff.2 ⟨.one, (by simp [Factor.empty]), 0, by rw [Nat.cast_zero]; rfl⟩

namespace Term

variable {t u : Term α (Node α)}

theorem polynomial_iff : t.Polynomial P S ↔
    ((∃ z : ℤ, t.numerator = z) ∧ t.denominator = 1) ∧ (∀ f ∈ t.factors, f.Polynomial P S) ∧
      t.divisors = [Factor.empty] := by
  obtain ⟨n, d, fs, gs⟩ := t
  constructor
  · intro h
    cases h with
    | product _ z _ factors => exact ⟨⟨⟨z, rfl⟩, rfl⟩, factors, rfl⟩
  · rintro ⟨⟨⟨z, rfl⟩, rfl⟩, factors, rfl⟩
    exact .product .inside z fs factors

theorem Polynomial.realFactors (h : t.Polynomial P S) : ∀ f ∈ t.realFactors, f.Polynomial P S :=
  fun f hf => (polynomial_iff.1 h).2.1 f (List.mem_filter.1 hf).1

theorem Polynomial.realDivisors (h : t.Polynomial P S) : t.realDivisors = [] := by
  rw [Term.realDivisors, (polynomial_iff.1 h).2.2, realFactors_of_one Factor.isOne_empty]
  rfl

/-! ### Terms that are built -/

/-- A product that is being built: nothing has come below the bar. -/
structure Unsettled (P S : Prop) (t : Term α (Node α)) : Prop where
  numerator : ∃ z : ℤ, t.numerator = z
  denominator : t.denominator = 1
  factors : ∀ f ∈ t.factors, f.Polynomial P S
  divisors : t.divisors = []

namespace Unsettled

theorem push (h : t.Unsettled P S) {f : Factor (Node α)} (hf : f.Polynomial P S) :
    (t.push true f).Unsettled P S :=
  ⟨h.numerator, h.denominator, List.forall_mem_append.2 ⟨h.factors, List.forall_mem_singleton.2 hf⟩,
    h.divisors⟩

theorem scale (h : t.Unsettled P S) (z : ℤ) : (t.scale true (z : α)).Unsettled P S := by
  obtain ⟨w, numerator⟩ := h.numerator
  refine ⟨⟨w * z, ?_⟩, h.denominator, h.factors, h.divisors⟩
  rw [Int.cast_mul, ← numerator]
  rfl

theorem scaleBy (h : t.Unsettled P S) (hu : u.Polynomial P S) :
    (t.scaleBy true u).Unsettled P S := by
  obtain ⟨⟨⟨z, numerator⟩, denominator⟩, -⟩ := polynomial_iff.1 hu
  obtain ⟨w, numerator'⟩ := h.numerator
  refine ⟨⟨w * z, ?_⟩, ?_, h.factors, h.divisors⟩
  · show t.numerator * u.numerator = _
    rw [numerator, numerator', Int.cast_mul]
  · show t.denominator * u.denominator = 1
    rw [h.denominator, denominator, mul_one]

theorem turned (h : t.Unsettled P S) (x : α) :
    (if Scalar.isOdd x = true then { t with numerator := -t.numerator } else t).Unsettled P S := by
  obtain ⟨z, numerator⟩ := h.numerator
  split
  · exact ⟨⟨-z, by rw [Int.cast_neg, numerator]⟩, h.denominator, h.factors, h.divisors⟩
  · exact h

variable [ExactScalar α]

theorem multiplyBy (h : t.Unsettled P S) {f : Factor (Node α)} (hf : f.Polynomial P S) :
    (t.multiplyBy true f).Unsettled P S := by
  have same := hf
  obtain ⟨b, e⟩ := f
  obtain ⟨base, -, k, rfl⟩ := Factor.polynomial_iff.1 hf
  have unsigned : ∀ v, (Factor.mk (.var v false) (.number (k : α))).Polynomial P S := fun v =>
    Factor.polynomial_iff.2 ⟨.var _ v false, (by simp), k, rfl⟩
  unfold Term.multiplyBy
  dsimp only
  split
  · rename_i x exponent
    obtain ⟨w, rfl⟩ := Node.polynomial_number.1 base
    cases exponent
    rw [ExactScalar.power_natCast]
    exact h.scale _
  · rename_i exponent
    cases exponent
    split
    · exact (h.turned _).push (unsigned _)
    · exact h.push same
  · cases base
  · exact h.push same

theorem absorb (h : t.Unsettled P S) {f : Factor (Node α)} (hf : f.Polynomial P S) :
    (t.absorb true f).Unsettled P S := by
  obtain ⟨-, -, k, exponent⟩ := Factor.polynomial_iff.1 hf
  have positive : Scalar.lt (k : α) 0 = false := by
    rw [← Int.cast_natCast, ← Int.cast_zero, ExactScalar.lt_cast]
    exact decide_eq_false (by omega)
  unfold Term.absorb
  rw [exponent]
  dsimp only
  rw [if_neg (by simp [positive])]
  exact h.multiplyBy hf

omit [ExactScalar α] in
/-- The factors of a polynomial term stand above the bar. -/
theorem sides (h : t.Polynomial P S) :
    ∀ f ∈ t.sides true, f.1.Polynomial P S ∧ f.2 = true := by
  rw [Term.sides, h.realDivisors, List.map_nil, List.append_nil, List.forall_mem_map]
  exact fun f hf => ⟨h.realFactors f hf, rfl⟩

theorem gather {pending : List (Factor (Node α) × Bool)}
    (waiting : ∀ f ∈ pending, f.1.Polynomial P S ∧ f.2 = true) (h : t.Unsettled P S) :
    (gather pending t).Unsettled P S := by
  fun_induction Term.gather pending t with
  | case1 t => exact h
  | case2 t base exponent above rest zero ih => exact ih (List.forall_mem_cons.1 waiting).2 h
  | case3 t exponent above rest zero unit u ih =>
    obtain ⟨⟨first, rfl⟩, rest⟩ := List.forall_mem_cons.1 waiting
    have inner : u.Polynomial P S := (Factor.polynomial_iff.1 first).1
    exact ih (List.forall_mem_append.2 ⟨rest, sides inner⟩) (h.scaleBy inner)
  | case4 t exponent above rest zero unit u ih =>
    obtain ⟨⟨first, rfl⟩, rest⟩ := List.forall_mem_cons.1 waiting
    have inner : u.Polynomial P S :=
      (Node.polynomial_sum.1 (Factor.polynomial_iff.1 first).1).2 u List.mem_cons_self
    exact ih (List.forall_mem_append.2 ⟨rest, sides inner⟩) (h.scaleBy inner)
  | case5 t exponent above rest zero unit f ih =>
    obtain ⟨⟨first, rfl⟩, rest⟩ := List.forall_mem_cons.1 waiting
    have inner : f.Polynomial P S := (Factor.polynomial_iff.1 first).1
    exact ih (List.forall_mem_append.2 ⟨rest, List.forall_mem_singleton.2 ⟨inner, rfl⟩⟩) h
  | case6 t exponent above rest zero unit base _ _ _ ih =>
    obtain ⟨⟨first, rfl⟩, rest⟩ := List.forall_mem_cons.1 waiting
    exact ih rest (h.absorb first)
  | case7 t base exponent above rest zero composite ih =>
    obtain ⟨⟨first, rfl⟩, rest⟩ := List.forall_mem_cons.1 waiting
    exact ih rest (h.absorb first)

theorem settled (h : t.Unsettled P S) : t.settled.Polynomial P S := by
  have sign : Scalar.lt t.denominator 0 = false := by
    rw [h.denominator, ExactScalar.lt_zero ExactScalar.isWhole_one, ExactScalar.toInt_one]
    rfl
  unfold Term.settled
  dsimp only
  rw [if_neg (by simp [sign]), h.divisors, polynomial_iff]
  refine ⟨⟨h.numerator, h.denominator⟩, ?_, rfl⟩
  dsimp only
  split
  · exact List.forall_mem_singleton.2 Factor.polynomial_empty
  · exact h.factors

end Unsettled

variable [ExactScalar α]

/-- The term of an integer and polynomial factors. -/
theorem polynomial_normal (z : ℤ) {fs : List (Factor (Node α))}
    (above : ∀ f ∈ fs, f.Polynomial P S) : (normal (z : α) 1 fs []).Polynomial P S := by
  have waiting : ∀ f ∈ fs.map (·, true) ++ [], f.1.Polynomial P S ∧ f.2 = true := by
    rw [List.append_nil, List.forall_mem_map]
    exact fun f hf => ⟨above f hf, rfl⟩
  have start : (⟨(z : α), 1, [], []⟩ : Term α (Node α)).Unsettled P S :=
    ⟨⟨z, rfl⟩, rfl, List.forall_mem_nil _, rfl⟩
  exact (start.gather waiting).settled

theorem polynomial_normal_one {fs : List (Factor (Node α))} (above : ∀ f ∈ fs, f.Polynomial P S) :
    (normal (1 : α) 1 fs []).Polynomial P S := by
  simpa using polynomial_normal 1 above

/-- The terms of integers, of which zero is one. -/
theorem polynomial_ofValue (z : ℤ) : (ofValue (z : α)).Polynomial P S :=
  polynomial_normal z (List.forall_mem_nil _)

theorem polynomial_zero : (Term.zero : Term α (Node α)).Polynomial P S := by
  have zero := polynomial_ofValue (α := α) (P := P) (S := S) 0
  rwa [Int.cast_zero] at zero

end Term

namespace Node

variable {n : Node α}

theorem Polynomial.asFactor (h : n.Polynomial P S .inside) : n.asFactor.Polynomial P S := by
  unfold Node.asFactor
  split
  · exact h
  · rename_i other
    exact Factor.polynomial_iff.2 ⟨h, fun f same => absurd same (other f), 1, by rw [Nat.cast_one]⟩

theorem Polynomial.wrap [ExactScalar α] (h : n.Polynomial P S .inside) :
    (Term.wrap n).Polynomial P S := by
  unfold Term.wrap
  split
  · exact h
  · exact (polynomial_sum.1 h).2 _ List.mem_cons_self
  · exact Term.polynomial_normal_one (List.forall_mem_singleton.2 h.asFactor)

end Node

namespace Term

variable {t u : Term α (Node α)}

theorem polynomial_ofNodes [ExactScalar α] (z : ℤ) {ms : List (Node α)}
    (above : ∀ m ∈ ms, m.Polynomial P S .inside) : (ofNodes (z : α) 1 ms []).Polynomial P S := by
  refine polynomial_normal z ?_
  rw [List.forall_mem_map]
  exact fun m hm => (above m hm).asFactor

theorem Polynomial.times [ExactScalar α] (ht : t.Polynomial P S) (hu : u.Polynomial P S) :
    (t.times u).Polynomial P S := by
  obtain ⟨⟨⟨z, numerator⟩, denominator⟩, -⟩ := polynomial_iff.1 ht
  obtain ⟨⟨⟨w, numerator'⟩, denominator'⟩, -⟩ := polynomial_iff.1 hu
  rw [Term.times, numerator, numerator', denominator, denominator', ← Int.cast_mul, mul_one,
    ht.realDivisors, hu.realDivisors]
  exact polynomial_normal _ (List.forall_mem_append.2 ⟨ht.realFactors, hu.realFactors⟩)

/-- The sum of two like terms has an integer for a coefficient again. -/
theorem Polynomial.combine [WholeScalar α] (ht : t.Polynomial P S) (hu : u.Polynomial P S) :
    Yields (Term.Polynomial P S) (t.combine u) := by
  obtain ⟨⟨⟨z, numerator⟩, denominator⟩, -⟩ := polynomial_iff.1 ht
  obtain ⟨⟨⟨w, numerator'⟩, denominator'⟩, -⟩ := polynomial_iff.1 hu
  have reduced := WholeScalar.reduceFraction_one (α := α) (z + w)
  rw [Int.cast_add] at reduced
  unfold Term.combine
  rw [numerator, numerator', denominator, denominator', mul_one, mul_one, mul_one, reduced,
    ht.realDivisors, ← Int.cast_add]
  exact .ok (polynomial_normal _ ht.realFactors)

end Term

/-! ### Sums that are built -/

namespace Node

variable [ExactScalar α] {n : Node α}

theorem Polynomial.summands (h : n.Polynomial P S p) : ∀ t ∈ n.summands, t.Polynomial P S := by
  unfold Node.summands
  split
  · exact (polynomial_sum.1 h).2
  · rename_i other
    have wrapped : (Term.wrap n).Polynomial P S := (h.moved other).wrap
    dsimp only
    cases sole : (Term.wrap n).soleSum? with
    | none => exact List.forall_mem_singleton.2 wrapped
    | some ts =>
      obtain ⟨-, e, -, above, -⟩ := Term.soleSum?_eq_some.1 sole
      have factor := wrapped.realFactors ⟨.sum ts, e⟩ (by rw [above]; exact List.mem_cons_self)
      exact (polynomial_sum.1 (Factor.polynomial_iff.1 factor).1).2

/-- The terms of the sum of some polynomials. -/
theorem polynomial_flattened {ns : List (Node α)} (each : ∀ n ∈ ns, n.Polynomial P S p) :
    ∀ t ∈ flattened ns, t.Polynomial P S := by
  intro t ht
  rcases mem_flattened ht with ⟨-, rfl⟩ | ⟨⟨n, hn, member⟩, -⟩
  · exact Term.polynomial_zero
  · exact (each n hn).summands t member

theorem polynomial_flattenedTerms {ts : List (Term α (Node α))} (each : ∀ t ∈ ts, t.Polynomial P S) :
    ∀ t ∈ flattenedTerms ts, t.Polynomial P S := by
  refine polynomial_flattened (p := .inside) ?_
  rw [List.forall_mem_map]
  exact each

end Node

end SymbolicAlgebra
