/-
  Expanded polynomials
  ====================
  Expanding a polynomial under whose exponents no power stands opens every sum that stands
  under an exponent: the base is expanded first, a positive power of a sum is multiplied
  out, and then the sums of a term are multiplied with the rest of it
  (**`Node.Polynomial.expand`**). What is left is opened (`Node.Opened`), and simplifying
  and reducing keep it so.

  A power that stands by itself is not multiplied with anything, so of a power of a sum
  the expanded sum is left under the exponent one, or under zero (`Node.Expanded`).
  Reducing takes it out.

  In an opened polynomial no factor at any depth has a sum for a base
  (**`Node.Opened.within`**).
-/
import SymbolicAlgebra.Proofs.Polynomial.Arithmetic

namespace SymbolicAlgebra

variable {α : Type} [FieldScalar α] {P S : Prop} {p : Place}

/-- A polynomial in which no sum stands under an exponent. -/
def Node.Opened (n : Node α) : Prop := n.Polynomial True False .alone

/-- An expanded factor whose exponent was `k`: unless it is opened under this exponent, it is
under the exponent one, or zero if `k` is. -/
inductive Factor.Opened (k : ℕ) : Factor (Node α) → Prop
  | power (b : Node α) (base : b.Polynomial True False .inside) : Opened k ⟨b, .number (k : α)⟩
  | single (b : Node α) (base : b.Opened) : Opened k ⟨b, .number ((min k 1 : ℕ) : α)⟩

/-- An expanded polynomial: it is opened, or alone under an exponent that is at most one. -/
inductive Node.Expanded : Node α → Prop
  | opened {n : Node α} (h : n.Opened) : Expanded n
  | single (b : Node α) (base : b.Opened) (j : ℕ) (small : j ≤ 1) :
    Expanded (.power ⟨b, .number (j : α)⟩)

/-! ### Factors at any depth -/

/-- The factor stands in the expression, at any depth. -/
inductive Factor.Within (f : Factor (Node α)) : Node α → Prop
  | self : Within f (.power f)
  | base {g : Factor (Node α)} (inner : Within f g.base) : Within f (.power g)
  | exponent {g : Factor (Node α)} (inner : Within f g.exponent) : Within f (.power g)
  | factor {t : Term α (Node α)} {g : Factor (Node α)} (member : g ∈ t.factors)
    (inner : Within f (.power g)) : Within f (.product t)
  | divisor {t : Term α (Node α)} {g : Factor (Node α)} (member : g ∈ t.divisors)
    (inner : Within f (.power g)) : Within f (.product t)
  | term {ts : List (Term α (Node α))} {t : Term α (Node α)} (member : t ∈ ts)
    (inner : Within f (.product t)) : Within f (.sum ts)
  | argument {g : Unary} {x : Node α} (inner : Within f x) : Within f (.unary g x)
  | left {g : Binary} {x y : Node α} (inner : Within f x) : Within f (.binary g x y)
  | right {g : Binary} {x y : Node α} (inner : Within f y) : Within f (.binary g x y)

theorem Node.polynomial_within {n : Node α} (h : n.Polynomial P False p) {f : Factor (Node α)}
    (within : f.Within n) (ts : List (Term α (Node α))) : f.base ≠ .sum ts := by
  induction h with
  | number _ z => cases within
  | var _ v negative => cases within
  | power _ b k base allowed ih =>
    cases within with
    | self =>
      intro sum
      dsimp only at sum
      rw [sum] at base
      exact (Node.polynomial_sum.1 base).1 rfl
    | base inner => exact ih inner
    | exponent inner => cases inner
  | product _ z fs factors ih =>
    cases within with
    | factor member inner => exact ih _ member inner
    | divisor member inner =>
      obtain rfl := List.mem_singleton.1 member
      cases inner with
      | self => simp [Factor.empty]
      | base inner => cases inner
      | exponent inner => cases inner
  | sum _ us allowed terms ih =>
    cases within with
    | term member inner => exact ih _ member inner

theorem Node.Opened.within {n : Node α} (h : n.Opened) {f : Factor (Node α)} (within : f.Within n)
    (ts : List (Term α (Node α))) : f.base ≠ .sum ts :=
  Node.polynomial_within h within ts

variable [WholeScalar α]

namespace Node

/-! ### Multiplying out -/

/-- The result is a sum of opened terms. -/
def IsOpenedSum (n : Node α) : Prop := ∃ ks, n = .sum ks ∧ ∀ k ∈ ks, k.Polynomial True False

omit [WholeScalar α] in
theorem IsOpenedSum.opened {n : Node α} (h : n.IsOpenedSum) : n.Opened := by
  obtain ⟨ks, rfl, terms⟩ := h
  exact .sum _ ks (by simp) terms

theorem IsOpenedSum.multiply {n : Node α} (h : n.IsOpenedSum) {us : List (Term α (Node α))}
    (hu : ∀ u ∈ us, u.Polynomial True False) : Yields IsOpenedSum (n.multiply (.sum us)) := by
  obtain ⟨ks, rfl, terms⟩ := h
  exact multiply_sums terms hu

theorem IsOpenedSum.multiplyRepeatedly {n : Node α} (h : n.IsOpenedSum)
    {us : List (Term α (Node α))} (hu : ∀ u ∈ us, u.Polynomial True False) (count : Nat) :
    Yields IsOpenedSum (n.multiplyRepeatedly (.sum us) count) := by
  induction count generalizing n with
  | zero => exact .ok h
  | succ count ih => exact (h.multiply hu).bind fun m hm => ih hm

theorem opened_expandedPower {b : Node α} (h : b.Opened) (k : ℕ) :
    Yields (Factor.Opened k) (expandedPower b (.number (k : α))) := by
  unfold expandedPower
  split
  · rename_i ts x exponent
    cases exponent
    have terms := (polynomial_sum.1 h).2
    split
    · rename_i positive
      obtain ⟨-, positive⟩ := Bool.and_eq_true_iff.1 positive
      rw [← Int.cast_natCast, ← Int.cast_zero, ExactScalar.lt_cast] at positive
      have small : min k 1 = 1 := min_eq_right (by have := of_decide_eq_true positive; omega)
      refine (IsOpenedSum.multiplyRepeatedly ⟨ts, rfl, terms⟩ terms _).bind fun m hm => .ok ?_
      have single := Factor.Opened.single (k := k) m hm.opened
      rwa [small, Nat.cast_one] at single
    · rename_i zero
      have none : k = 0 := by
        by_contra some
        refine zero (Bool.and_eq_true_iff.2 ⟨?_, ?_⟩)
        · rw [← Int.cast_natCast, ExactScalar.isWhole_cast]
        · rw [← Int.cast_natCast, ← Int.cast_zero, ExactScalar.lt_cast]
          exact decide_eq_true (by omega)
      subst none
      exact .ok (.single (.sum ts) h)
  · rename_i other
    exact .ok (.power _ (Polynomial.moved h fun ts same => other ts k same rfl))

omit [WholeScalar α] in
theorem splitSums_opened {fs : List (Factor (Node α))} (each : ∀ f ∈ fs, ∃ k ≠ 0, f.Opened k) :
    (∀ ts ∈ (splitSums fs).1, ∀ t ∈ ts, t.Polynomial True False) ∧
      ∀ f ∈ (splitSums fs).2, f.Polynomial True False := by
  induction fs with
  | nil => exact ⟨List.forall_mem_nil _, List.forall_mem_nil _⟩
  | cons f fs ih =>
    obtain ⟨first, rest⟩ := List.forall_mem_cons.1 each
    obtain ⟨sums, others⟩ := ih rest
    rw [splitSums]
    generalize splitSums fs = parts at sums others
    obtain ⟨groups, left⟩ := parts
    dsimp only at sums others ⊢
    obtain ⟨k, some, opened⟩ := first
    split
    · rename_i ts sum
      cases opened with
      | power b base =>
        obtain rfl : b = .sum ts := sum
        exact ((polynomial_sum.1 base).1 rfl).elim
      | single b base =>
        obtain rfl : b = .sum ts := sum
        have unit : Factor.isUnit ⟨.sum ts, .number ((min k 1 : ℕ) : α)⟩ = true := by
          rw [min_eq_right (by omega), Nat.cast_one]
          exact beq_self_eq_true (1 : α)
        rw [if_pos unit]
        exact ⟨List.forall_mem_cons.2 ⟨(polynomial_sum.1 base).2, sums⟩, others⟩
    · rename_i other
      refine ⟨sums, List.forall_mem_cons.2 ⟨?_, others⟩⟩
      cases opened with
      | power b base => exact .power _ b k base fun _ _ => trivial
      | single b base => exact .power _ b _ (Polynomial.moved base other) fun _ _ => trivial

/-- The sums of a term are multiplied out with the rest of it. -/
theorem opened_expandedTerm (z : ℤ) {fs : List (Factor (Node α))}
    (each : ∀ f ∈ fs, ∃ k ≠ 0, f.Opened k) : Yields Opened (expandedTerm (z : α) 1 fs []) := by
  obtain ⟨sums, others⟩ := splitSums_opened each
  unfold expandedTerm
  split
  · rename_i rest shown
    rw [shown] at others
    exact .ok (Polynomial.anywhere (Term.polynomial_normal z others))
  · rename_i groups rest _ shown
    rw [shown] at sums others
    have start : (Node.sum (flattenedTerms [Term.normal (z : α) 1 rest []])).IsOpenedSum :=
      ⟨_, rfl, polynomial_flattenedTerms
        (List.forall_mem_singleton.2 (Term.polynomial_normal z others))⟩
    have product : Yields IsOpenedSum (groups.foldlM (fun (m : Node α) ts => m.multiply (.sum ts))
        (.sum (flattenedTerms [Term.normal (z : α) 1 rest []]))) :=
      .foldlM (fun ts ht m hm => hm.multiply (sums ts ht)) start
    refine product.bind fun m hm => ?_
    rw [if_pos (by simp)]
    exact .ok hm.opened

/-! ### Expanding -/

theorem opened_factor {b : Node α} (inner : Yields Opened b.expand) (k : ℕ) :
    Yields (Factor.Opened k) (Factor.expand ⟨b, .number (k : α)⟩) := by
  refine inner.bind fun c hc => ?_
  refine Yields.bind (Q := (· = .number (k : α))) ?_ fun e same => ?_
  · rw [expand]
    · exact .ok rfl
    all_goals simp
  · subst same
    exact opened_expandedPower hc k

/-- A power that stands alone is expanded as a factor; anything else is opened. -/
theorem expand_opened {n : Node α} (h : n.Polynomial False True p) :
    (∀ f, n = .power f → Yields (fun g => ∃ k : ℕ, f.exponent = .number (k : α) ∧ g.Opened k)
        f.expand) ∧
      ((∀ f, n ≠ .power f) → Yields Opened n.expand) := by
  induction h with
  | number p z =>
    refine ⟨(by simp), fun _ => ?_⟩
    rw [expand]
    · exact .ok (.number _ z)
    all_goals simp
  | var p v negative =>
    refine ⟨(by simp), fun _ => ?_⟩
    rw [expand]
    · exact .ok (.var _ v negative)
    all_goals simp
  | power p b k base allowed ih =>
    refine ⟨?_, fun other => absurd rfl (other _)⟩
    rintro f ⟨rfl⟩
    -- no power stands under an exponent, so the base itself is opened
    exact (opened_factor (ih.2 allowed) k).mono fun g hg => ⟨k, rfl, hg⟩
  | product p z fs factors ih =>
    refine ⟨(by simp), fun _ => ?_⟩
    have above : Yields (∀ g ∈ ·, ∃ k ≠ 0, g.Opened k) (expandFactors fs) := by
      rw [expandFactors_eq]
      refine .mapM fun f hf => ?_
      obtain ⟨member, real⟩ := List.mem_filter.1 hf
      refine ((ih f member).1 f rfl).mono fun g hg => ?_
      obtain ⟨k, exponent, opened⟩ := hg
      refine ⟨k, ?_, opened⟩
      rintro rfl
      simp [Factor.isOne, exponent, isZero] at real
    have below : expandFactors [(Factor.empty : Factor (Node α))] = .ok [] := by
      rw [expandFactors_eq, realFactors_of_one Factor.isOne_empty]
      rfl
    rw [expand_product]
    refine above.bind fun fs' hf => ?_
    rw [below]
    exact opened_expandedTerm z hf
  | sum p ts allowed terms ih =>
    refine ⟨(by simp), fun _ => ?_⟩
    rw [expand, expandTerms_eq]
    have each : Yields (∀ n ∈ ·, n.Opened) (ts.mapM fun t => (Node.product t).expand) :=
      .mapM fun t ht => (ih t ht).2 (by simp)
    refine each.bind fun ns hn => ?_
    exact (polynomial_simplifyTerms (polynomial_flattened hn)).bind fun us hu => .ok (.sum _ us (by simp) hu)

/-- Expanding a polynomial without powers of powers opens it. -/
theorem Polynomial.expand {n : Node α} (h : n.Polynomial False True p) :
    Yields Expanded n.expand := by
  obtain ⟨power, other⟩ := expand_opened h
  by_cases alone : ∃ f, n = .power f
  · obtain ⟨f, rfl⟩ := alone
    rw [expand_power]
    refine (power f rfl).bind fun g hg => .ok ?_
    obtain ⟨k, -, opened⟩ := hg
    cases opened with
    | power b base => exact .opened (.power _ b k base fun _ _ => trivial)
    | single b base => exact .single b base _ (min_le_right k 1)
  · exact (other fun f same => alone ⟨f, same⟩).mono fun m hm => .opened hm

/-! ### Simplifying and reducing -/

theorem Expanded.simplify {n : Node α} (h : n.Expanded) : Yields Expanded n.simplify := by
  cases h with
  | opened opened => exact (Polynomial.simplify opened).mono fun m hm => .opened hm
  | single b base j small =>
    have level : ∀ level, ExponentRules.Plain (exponentRules level : ExponentRules α) := .level
    unfold Node.simplify
    rw [depth, Nat.add_comm, simplifyAt]
    refine (polynomial_simplifyFactor (level _) (polynomial_simplifyAt (level _) base) j).bind ?_
    rintro ⟨c, e⟩ ⟨hc, i, bound, rfl⟩
    exact .ok (.single c hc i (by omega))

omit [WholeScalar α] in
theorem Expanded.reduce [ExactScalar α] {n : Node α} (h : n.Expanded) : n.reduce.Opened := by
  cases h with
  | opened opened => exact Polynomial.reduce opened
  | single b base j small =>
    have fixed := reduceAt_number (α := α) (max b.height (Node.number (j : α)).height)
    have inner : (reduceAt (max b.height (Node.number (j : α)).height) b).Opened :=
      polynomial_reduceAt base
    unfold Node.reduce
    rw [height, Nat.add_comm, reduceAt, reduceFactor]
    dsimp only
    rw [fixed]
    dsimp only
    obtain rfl | rfl : j = 0 ∨ j = 1 := by omega
    · rw [if_pos (by simp)]
      exact .one
    · rw [if_neg (by simp), if_pos (by simp)]
      exact inner

/-- Expanding, simplifying and reducing a polynomial without powers of powers has a result, and no
factor in it has a sum for a base. -/
theorem Polynomial.expand_within {n : Node α} (h : n.Polynomial False True p) :
    ∃ e m, n.expand = .ok e ∧ e.simplify = .ok m ∧
      ∀ f : Factor (Node α), f.Within m.reduce → ∀ ts, f.base ≠ .sum ts := by
  obtain ⟨e, expanded⟩ := (fails_expand n).exists
  obtain ⟨m, simplified⟩ := (fails_simplify e).exists
  have opened := (h.expand e expanded).simplify m simplified
  exact ⟨e, m, expanded, simplified, fun f within ts => opened.reduce.within within ts⟩

end Node

end SymbolicAlgebra
