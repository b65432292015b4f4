/-
  Arithmetic of polynomials
  =========================
  Sums, differences, products and natural powers of polynomials are polynomials
  (**`Node.Polynomial.add`**, **`Node.Polynomial.multiply`**). There are no divisors, so
  two terms need no common denominator before they are added.

  The product of a sum with something else is a term with the sum as a factor, so sums
  under exponents have to be allowed here. Two sums are multiplied out at once, and this
  brings no sum under an exponent (**`Node.multiply_sums`**).
-/
import SymbolicAlgebra.Proofs.Polynomial.Simplifying

namespace SymbolicAlgebra

variable {α : Type} [FieldScalar α] {P S : Prop} {p q : Place}

namespace Node

variable {m n : Node α}

/-- Where sums may stand under exponents, they may stand anywhere. -/
theorem Polynomial.free (h : n.Polynomial P True p) : n.Polynomial P True q := by
  cases h with
  | sum _ ts _ terms => exact .sum _ ts (fun _ => trivial) terms
  | number _ z => exact .number _ z
  | var _ v negative => exact .var _ v negative
  | power _ b k base allowed => exact .power _ b k base allowed
  | product _ z fs factors => exact .product _ z fs factors

/-! ### Rebuilding -/

section Clone

variable [ExactScalar α]

omit [ExactScalar α] in
theorem polynomial_cloneFactors {fs : List (Factor (Node α))}
    (each : ∀ f ∈ fs, (Node.power f).clone.Polynomial P S .inside) :
    ∀ f ∈ cloneFactors fs, f.Polynomial P S := by
  rw [cloneFactors_eq, List.forall_mem_map]
  intro f hf
  have rebuilt := each f (List.mem_filter.1 hf).1
  rwa [clone] at rebuilt

theorem Polynomial.clone (h : n.Polynomial True S p) : n.clone.Polynomial True S p := by
  induction h with
  | number p z => exact .number p z
  | var p v negative => exact .var p v negative
  | power p b k base allowed ih =>
    have number : (Node.number (k : α)).clone = .number (k : α) := by
      rw [Node.clone]
      all_goals simp
    rw [Node.clone, number]
    exact .power p b.clone k ih fun _ _ => trivial
  | product p z fs factors ih =>
    have none : cloneFactors [(Factor.empty : Factor (Node α))] = [] := by
      rw [cloneFactors_eq, realFactors_of_one Factor.isOne_empty]
      rfl
    rw [Node.clone, none]
    have built := Term.polynomial_normal z (polynomial_cloneFactors ih)
    exact Polynomial.anywhere built
  | sum p ts allowed terms ih =>
    rw [Node.clone, cloneTerms_eq]
    refine .sum p _ allowed (polynomial_flattenedTerms ?_)
    rw [List.forall_mem_map]
    intro t ht
    have rebuilt := ih t ht
    rwa [Node.clone] at rebuilt

end Clone

/-! ### Adding -/

/-- Over no divisors nothing is lacking. -/
theorem overShared_nil {t : Term α (Node α)} (divisors : t.realDivisors = []) :
    t.overShared ((Tally.ofList Factor.same []).union Factor.same (Tally.ofList Factor.same [])) = t := by
  unfold Term.overShared
  rw [divisors]
  exact if_pos rfl

variable [WholeScalar α]

section Adding

variable {simplify : List (Term α (Node α)) → Checked (List (Term α (Node α)))}
  (inner : ∀ {ts}, (∀ t ∈ ts, t.Polynomial True True) →
    Yields (∀ t ∈ ·, t.Polynomial True True) (simplify ts))

include inner

theorem polynomial_addTerms {t u : Term α (Node α)} (ht : t.Polynomial True True)
    (hu : u.Polynomial True True) : Yields (Node.Polynomial True True p) (addTerms simplify t u) := by
  have rebuilt : ∀ {t : Term α (Node α)}, t.Polynomial True True →
      (Node.product t.clone).Polynomial True True p := by
    intro t ht
    have cloned := Polynomial.clone ht
    rw [Node.clone] at cloned
    exact cloned.anywhere
  unfold addTerms
  split
  · exact .ok (rebuilt ht)
  · split
    · exact .ok (rebuilt hu)
    · rw [ht.realDivisors, hu.realDivisors]
      dsimp only
      rw [overShared_nil ht.realDivisors, overShared_nil hu.realDivisors]
      split
      · exact (ht.combine hu).bind fun k hk => .ok hk.anywhere
      · obtain ⟨⟨⟨z, numerator⟩, denominator⟩, -⟩ := Term.polynomial_iff.1 ht
        obtain ⟨⟨⟨w, numerator'⟩, denominator'⟩, -⟩ := Term.polynomial_iff.1 hu
        rw [numerator, numerator', denominator, denominator', ht.realDivisors]
        refine (inner (polynomial_flattenedTerms ?_)).bind fun ts sum => ?_
        · exact List.forall_mem_cons.2 ⟨Term.polynomial_normal z ht.realFactors,
            List.forall_mem_singleton.2 (Term.polynomial_normal w hu.realFactors)⟩
        · exact .ok (.sum _ ts (fun _ => trivial) sum)

theorem polynomial_addWith (hm : m.Polynomial True True p) (hn : n.Polynomial True True p) :
    Yields (Node.Polynomial True True p) (addWith simplify m n) := by
  have addends : ∀ t ∈ addends n, t.Polynomial True True := by
    unfold Node.addends
    split
    · exact (polynomial_sum.1 hn).2
    · exact List.forall_mem_singleton.2 hn.free.wrap
  have sum : ∀ {ts us : List (Term α (Node α))}, (∀ t ∈ ts, t.Polynomial True True) →
      (∀ u ∈ us, u.Polynomial True True) →
      Yields (Node.Polynomial True True p)
        (do return .sum (← simplify (flattenedTerms (ts ++ us)))) := by
    intro ts us ht hu
    refine (inner (polynomial_flattenedTerms (List.forall_mem_append.2 ⟨ht, hu⟩))).bind ?_
    exact fun ks hk => .ok (.sum _ ks (fun _ => trivial) hk)
  unfold addWith
  split
  · obtain ⟨z, rfl⟩ := polynomial_number.1 hm
    obtain ⟨w, rfl⟩ := polynomial_number.1 hn
    rw [FieldScalar.ofValue_eq, ← Int.cast_add]
    exact .ok (.number _ _)
  · exact sum (polynomial_sum.1 hm).2 addends
  · exact sum (polynomial_flattened (List.forall_mem_singleton.2 hm)) (polynomial_sum.1 hn).2
  · exact polynomial_addTerms inner hm.free.wrap hn.free.wrap

end Adding

theorem Polynomial.add (hm : m.Polynomial True True p) (hn : n.Polynomial True True p) :
    Yields (Node.Polynomial True True p) (m.add n) :=
  polynomial_addWith polynomial_simplifyTerms hm hn

/-! ### Multiplying -/

omit [WholeScalar α]

section Terms

variable [ExactScalar α]

theorem Polynomial.timesTerm (hm : m.Polynomial P True p) (hn : n.Polynomial P True p) :
    (Node.timesTerm m n).Polynomial P True q :=
  Polynomial.anywhere (hm.free.wrap.times hn.free.wrap)

theorem polynomial_crossTerms {ts us : List (Term α (Node α))} (ht : ∀ t ∈ ts, t.Polynomial P S)
    (hu : ∀ u ∈ us, u.Polynomial P S) : ∀ k ∈ crossTerms ts us, k.Polynomial P S := by
  rw [crossTerms, List.forall_mem_flatMap]
  intro t member
  rw [List.forall_mem_map]
  exact fun u hk => (ht t member).times (hu u hk)

theorem Polynomial.negate (h : n.Polynomial P True p) : n.negate.Polynomial P True p := by
  unfold Node.negate
  split
  · obtain ⟨z, rfl⟩ := polynomial_number.1 h
    rw [FieldScalar.ofValue_eq, ← Int.cast_neg]
    exact .number _ _
  · cases h
  · exact .var _ _ _
  · refine Polynomial.timesTerm h ?_
    simpa using Polynomial.number (α := α) p (-1)

theorem Polynomial.raise (h : n.Polynomial P S .inside) (k : ℕ) :
    (n.raise (.number (k : α))).Polynomial P S p :=
  Polynomial.anywhere (Factor.polynomial_raised h k)

end Terms

variable [WholeScalar α]

theorem Polynomial.subtract (hm : m.Polynomial True True p) (hn : n.Polynomial True True p) :
    Yields (Node.Polynomial True True p) (m.subtract n) :=
  hm.add hn.negate

/-- Two sums are multiplied out. -/
theorem multiply_sums {ts us : List (Term α (Node α))} (ht : ∀ t ∈ ts, t.Polynomial True S)
    (hu : ∀ u ∈ us, u.Polynomial True S) :
    Yields (fun n => ∃ ks, n = .sum ks ∧ ∀ k ∈ ks, k.Polynomial True S)
      ((Node.sum ts).multiply (.sum us)) := by
  unfold Node.multiply
  refine (polynomial_simplifyTerms (polynomial_flattenedTerms (polynomial_crossTerms ht hu))).bind ?_
  exact fun ks hk => .ok ⟨ks, rfl, hk⟩

theorem Polynomial.multiply (hm : m.Polynomial True True p) (hn : n.Polynomial True True p) :
    Yields (Node.Polynomial True True p) (m.multiply n) := by
  have product : (Node.timesTerm m n).Polynomial True True p := Polynomial.timesTerm hm hn
  cases hm with
  | number _ z =>
    cases hn with
    | number _ w =>
      unfold Node.multiply
      dsimp only
      rw [FieldScalar.ofValue_eq, ← Int.cast_mul]
      exact .ok (.number _ _)
    | _ => exact .ok product
  | var _ v negative =>
    have square : (Factor.mk (.var v false) (.number (Scalar.ofInt 2 : α))).Polynomial True True := by
      have two : Scalar.ofInt 2 = ((2 : ℕ) : α) := by
        rw [ExactScalar.ofInt_cast]
        norm_cast
      rw [two]
      exact .power _ _ 2 (.var _ v false) (by simp)
    cases hn with
    | var _ w opposite =>
      unfold Node.multiply
      dsimp only
      split
      · refine .ok ?_
        split
        · have term := Term.polynomial_normal (-1) (List.forall_mem_singleton.2 square)
          rw [Int.cast_neg, Int.cast_one] at term
          exact Polynomial.anywhere term
        · exact Polynomial.anywhere square
      · exact .ok product
    | _ =>
      refine .ok ?_
      split
      · exact .var _ v _
      · exact product
  | sum _ ts _ terms =>
    cases hn with
    | sum _ us _ terms' =>
      refine (multiply_sums terms terms').mono ?_
      rintro _ ⟨ks, rfl, hk⟩
      exact .sum _ ks (fun _ => trivial) hk
    | _ => exact .ok product
  | _ => exact .ok product

end Node

end SymbolicAlgebra
