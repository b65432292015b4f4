/-
  Sums that stay as they are
  ==========================
  A sum is steady when its terms are steady, pairwise unlike, ordered, and none of them
  is nothing but a sum in brackets. A steady sum is simplified to itself:
  **`Node.SteadySum.simplifySum_eq`**; and reducing leaves it alone, if it has more than
  one term: **`Node.SteadySum.sum_steady`**.

  Which terms are like each other is a question of their factors alone. Numbers are like
  each other, and like zero (`Term.Bare`), and so are multiples of one sum in brackets;
  of other terms it is said that they are solid (`Term.isSolid`).
-/
import SymbolicAlgebra.Proofs.Algebra.Likeness
import SymbolicAlgebra.Proofs.Steady.Term

namespace SymbolicAlgebra

open Tally (EquivalenceOn)

variable {α : Type} [FieldScalar α]

/-! ### Like terms -/

namespace Term

theorem isLike_equivalence : EquivalenceOn (fun _ => True) (isLike (α := α)) :=
  isLike_comparable.mono fun t _ => (Node.product t).comparable

theorem isLike_symm {t u : Term α (Node α)} (h : t.isLike u = true) : u.isLike t = true :=
  isLike_equivalence.symm t u trivial trivial h

theorem isLike_trans {t u w : Term α (Node α)} (h : t.isLike u = true) (h' : u.isLike w = true) :
    t.isLike w = true := isLike_equivalence.trans t u w trivial trivial trivial h h'

/-- The same factors above and below the bar. -/
structure SameParts (t u : Term α (Node α)) : Prop where
  factors : t.realFactors = u.realFactors
  divisors : t.realDivisors = u.realDivisors

theorem SameParts.isLike_left {t u : Term α (Node α)} (h : t.SameParts u) (w : Term α (Node α)) :
    t.isLike w = u.isLike w := by
  rw [isLike_eq, isLike_eq, h.factors, h.divisors]

/-- Whether the term is more than a number times at most one sum in brackets. -/
def isSolid (t : Term α (Node α)) : Bool :=
  match t.realFactors, t.realDivisors with
  | [], [] => false
  | [⟨.sum _, exponent⟩], [] => !exponent.isUnit
  | _, _ => true

theorem SameParts.isSolid_eq {t u : Term α (Node α)} (h : t.SameParts u) : t.isSolid = u.isSolid := by
  rw [isSolid, isSolid, h.factors, h.divisors]

theorem soleSum?_of_solid {t : Term α (Node α)} (h : t.isSolid = true) : t.soleSum? = none := by
  unfold isSolid at h
  unfold soleSum?
  split
  · split
    · rename_i ts exponent above below
      rw [above, below] at h
      rw [if_neg (by simpa using h)]
    · rfl
  · rfl

/-- No factor above or below the bar. -/
structure Bare (t : Term α (Node α)) : Prop where
  factors : t.realFactors = []
  divisors : t.realDivisors = []

theorem Bare.not_solid {t : Term α (Node α)} (h : t.Bare) : t.isSolid = false := by
  rw [isSolid, h.factors, h.divisors]

theorem Bare.soleSum?_eq {t : Term α (Node α)} (h : t.Bare) : t.soleSum? = none := by
  rw [soleSum?, h.factors, h.divisors]
  split <;> rfl

theorem Bare.isLike {t u : Term α (Node α)} (h : t.Bare) (k : u.Bare) : t.isLike u = true := by
  rw [isLike_eq, h.factors, h.divisors, k.factors, k.divisors]
  rfl

/-- What is like a bare term is bare. -/
theorem Bare.of_like {t u : Term α (Node α)} (h : t.Bare) (like : t.isLike u = true) : u.Bare := by
  rw [isLike_eq, h.factors, h.divisors, Tally.matched, Tally.matched, Bool.and_eq_true,
    List.isEmpty_iff, List.isEmpty_iff] at like
  exact ⟨like.1, like.2⟩

theorem zero_bare [ExactScalar α] : (zero : Term α (Node α)).Bare := by
  rw [zero_eq]
  constructor <;> simp [realFactors, realDivisors, SymbolicAlgebra.realFactors, Factor.isOne,
    Factor.empty, Node.isZero]

end Term

namespace Node

/-! ### Steady sums -/

theorem mergeOne_unlike {simplify : Term α (Node α) → Checked (Term α (Node α))}
    {t : Term α (Node α)} {us : List (Term α (Node α))} (fresh : ∀ u ∈ us, u.isLike t = false) :
    mergeOne simplify t us = .ok (us ++ [t]) := by
  induction us with
  | nil => rfl
  | cons u us ih =>
    obtain ⟨first, later⟩ := List.forall_mem_cons.1 fresh
    rw [mergeOne, if_neg (by simp [first]), ih later]
    rfl

/-- Unlike steady terms in order, none of which is nothing but a sum in brackets. -/
structure SteadySum (ts : List (Term α (Node α))) : Prop where
  some : ts ≠ []
  steady : ∀ t ∈ ts, t.Steady
  plain : ∀ t ∈ ts, t.soleSum? = none
  unlike : ts.Pairwise fun t u => t.isLike u = false
  ordered : ts.Pairwise fun t u => precedes u t = false

namespace SteadySum

variable {ts : List (Term α (Node α))}

/-- A steady sum is simplified to itself. -/
theorem simplifySum_eq (h : SteadySum ts) (level depth : Nat) :
    simplifySum (Term.pass level depth) ts = .ok ts := by
  have folded : ∀ ts us : List (Term α (Node α)), (∀ t ∈ ts, t.Steady) →
      (us ++ ts).Pairwise (fun t u => t.isLike u = false) →
      ts.foldlM (fun merged t => do mergeOne (Term.pass level depth) (← t.pass level depth) merged)
        us = .ok (us ++ ts) := by
    intro ts
    induction ts with
    | nil =>
      intro us _ _
      rw [List.append_nil]
      rfl
    | cons t ts ih =>
      intro us steady unlike
      obtain ⟨first, later⟩ := List.forall_mem_cons.1 steady
      have fresh : ∀ u ∈ us, u.isLike t = false := by
        intro u hu
        exact (List.pairwise_append.1 unlike).2.2 u hu t List.mem_cons_self
      rw [List.foldlM_cons, first.pass_eq]
      simp only [bind, Except.bind]
      rw [mergeOne_unlike fresh]
      have rest := ih (us ++ [t]) later (by simpa using unlike)
      rw [List.append_assoc] at rest
      exact rest
  rw [simplifySum, folded ts [] h.steady (by simpa using h.unlike)]
  simp only [bind, Except.bind, pure, Except.pure, List.nil_append]
  rw [flattenedTerms, flattened_eq (flatMap_summands h.plain) h.some
    (fun t ht => (h.steady t ht).nonzero) h.ordered]

variable [ExactScalar α]

/-- Reducing the terms of a steady sum of two or more leaves it alone. -/
theorem flattened_plainest (h : SteadySum ts) : flattened (ts.map Term.plainest) = ts := by
  apply flattened_eq _ h.some (fun t ht => (h.steady t ht).nonzero) h.ordered
  have steady := h.steady
  have plain := h.plain
  clear h
  induction ts with
  | nil => rfl
  | cons t ts ih =>
    obtain ⟨first, later⟩ := List.forall_mem_cons.1 steady
    obtain ⟨single, others⟩ := List.forall_mem_cons.1 plain
    have alone : summands t.plainest = [t] :=
      Term.summands_of_wrap (first.canonical.wrap_plainest first.nonzero) single
    rw [List.map_cons, List.flatMap_cons, ih later others, alone]
    rfl

/-- A steady sum of two or more terms is a steady expression. -/
theorem sum_steady (h : SteadySum ts) (several : ∀ t, ts ≠ [t]) : (Node.sum ts).Steady where
  simplified level depth := by
    cases depth with
    | zero => rfl
    | succ depth =>
      rw [Term.simplifyAt_sum, h.simplifySum_eq]
      rfl
  reduced height := by
    cases height with
    | zero => rfl
    | succ height =>
      have reduced : ts.map (reduceTerm (reduceAt height)) = ts.map Term.plainest := by
        apply List.map_congr_left
        intro t ht
        exact (h.steady t ht).reduceTerm_eq height
      rw [reduceAt, reduced, h.flattened_plainest]
      exact several

end SteadySum

variable [ExactScalar α]

theorem flattenedTerms_zero : flattenedTerms [(Term.zero : Term α (Node α))] = [Term.zero] := by
  have plain := Term.zero_bare.soleSum?_eq (α := α)
  rw [flattenedTerms, flattened, flatMap_summands (List.forall_mem_singleton.2 plain),
    List.filter_singleton, Term.zero_isZero]
  rfl

end Node

end SymbolicAlgebra
