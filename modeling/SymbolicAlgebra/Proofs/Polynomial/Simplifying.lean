/-
  Polynomials stay polynomials
  ============================
  Reducing and simplifying leave a polynomial a polynomial, and where sums do not stand
  under an exponent, none comes there (**`Node.polynomial_reduceAt`**,
  **`Node.Polynomial.simplify`**).

  Reducing does more: a whole power of a whole power is one power, so no power is left
  under an exponent (**`Node.Polynomial.reduce_flat`**). Simplifying may bring one there
  again, when a product comes down to a power: of `(x * x) ^ 2` it leaves the square of a
  square.

  Exponents are numbers, so the levels of exponents play no part: all that is known of the
  rules is how they treat numbers (`ExponentRules.Plain`).
-/
import Mathlib.Algebra.Field.Basic
import SymbolicAlgebra.Proofs.Lasting.Height
import SymbolicAlgebra.Proofs.Polynomial.Shape

namespace SymbolicAlgebra

variable {α : Type} [FieldScalar α] {P P' S : Prop} {p q : Place}

/-! ### Reducing -/

namespace Factor

variable [ExactScalar α]

/-- A power of a power becomes one power. -/
theorem polynomial_raised {b : Node α} (h : b.Polynomial P S .inside) (k : ℕ) :
    (raised b (.number (k : α))).Polynomial P S := by
  cases h with
  | power _ b j base allowed =>
    have whole : (Scalar.isWhole (j : α) && Scalar.isWhole (k : α)) = true := by
      rw [← Int.cast_natCast, ← Int.cast_natCast (n := k), ExactScalar.isWhole_cast,
        ExactScalar.isWhole_cast, Bool.and_true]
    rw [raised, if_pos whole, FieldScalar.ofValue_eq, ← Nat.cast_mul]
    exact .power _ b (j * k) base allowed
  | number _ z => exact .power _ _ k (.number _ z) (by simp)
  | var _ v negative => exact .power _ _ k (.var _ v negative) (by simp)
  | product _ z fs factors => exact .power _ _ k (.product _ z fs factors) (by simp)
  | sum _ ts allowed terms => exact .power _ _ k (.sum _ ts allowed terms) (by simp)

end Factor

namespace Node

variable [ExactScalar α] {n : Node α}

section Step

variable {reduce : Node α → Node α} (fixed : ∀ x, reduce (.number x) = .number x)

include fixed

theorem polynomial_reduceFactor {b : Node α} (h : (reduce b).Polynomial P S .inside) (k : ℕ) :
    (reduceFactor reduce ⟨b, .number (k : α)⟩).Polynomial P S .inside := by
  unfold reduceFactor
  dsimp only
  rw [fixed]
  dsimp only
  split
  · exact .one
  · split
    · exact h
    · exact Factor.polynomial_raised h k

/-- A term may come down to the base of its only factor, so it is reduced twice there. -/
theorem polynomial_reduceTerm {t : Term α (Node α)} (ht : t.Polynomial P S)
    (first : ∀ f ∈ t.factors, (reduce f.base).Polynomial P' S .inside)
    (again : ∀ n : Node α, n.Polynomial P' S .inside → (reduce n).Polynomial P' S .inside) :
    (reduceTerm reduce t).Polynomial P' S .inside := by
  obtain ⟨⟨⟨z, numerator⟩, denominator⟩, factors, -⟩ := Term.polynomial_iff.1 ht
  have each : ∀ n ∈ t.realFactors.map (reduceFactor reduce), n.Polynomial P' S .inside := by
    rw [List.forall_mem_map]
    intro f hf
    have member := (List.mem_filter.1 hf).1
    obtain ⟨-, -, k, exponent⟩ := Factor.polynomial_iff.1 (factors f member)
    have reduced := polynomial_reduceFactor fixed (first f member) k
    rwa [← exponent] at reduced
  have parts := Term.polynomial_ofNodes z each
  unfold reduceTerm
  dsimp only
  rw [numerator, denominator, ht.realDivisors, List.map_nil]
  generalize Term.ofNodes (z : α) 1 (t.realFactors.map (reduceFactor reduce)) [] = reduced at parts ⊢
  obtain ⟨⟨⟨w, numerator⟩, -⟩, -⟩ := Term.polynomial_iff.1 parts
  have product : (Node.product reduced).Polynomial P' S .inside := parts
  split
  · exact .zero
  · split
    · split
      · rw [numerator, FieldScalar.ofValue_eq]
        exact .number _ w
      · rename_i f single
        have factor := parts.realFactors f (by rw [single]; exact List.mem_cons_self)
        obtain ⟨base, -, k, exponent⟩ := Factor.polynomial_iff.1 factor
        have only := polynomial_reduceFactor fixed (again f.base base) k
        rw [← exponent] at only
        split
        · exact only
        · split
          · split
            · exact .var _ _ _
            · rename_i c negative constant
              rw [show reduceFactor reduce f = .constant c negative from constant] at only
              cases only
            · exact product
          · exact product
      · exact product
    · exact product

end Step

/-- One step of reducing, when what is under the exponents reduces as it should. -/
theorem polynomial_reduce_step {height : Nat}
    (first : ∀ m : Node α, m.height < n.height → m.Polynomial P S .inside →
      (reduceAt height m).Polynomial P' S .inside)
    (again : ∀ m : Node α, m.Polynomial P' S .inside → (reduceAt height m).Polynomial P' S .inside)
    (h : n.Polynomial P S p) : (reduceAt (height + 1) n).Polynomial P' S p := by
  have fixed := reduceAt_number (α := α) height
  have term : ∀ {t : Term α (Node α)}, (Node.product t).height ≤ n.height → t.Polynomial P S →
      (reduceTerm (reduceAt height) t).Polynomial P' S .inside := by
    intro t low ht
    refine polynomial_reduceTerm fixed ht (fun f hf => ?_) again
    have below := (height_product_le_iff.1 low).2 f (List.mem_append_left _ hf)
    exact first f.base below.1 (Factor.polynomial_iff.1 ((Term.polynomial_iff.1 ht).2.1 f hf)).1
  cases h with
  | number _ z => exact .number _ z
  | var _ v negative => exact .var _ v negative
  | power _ b k base _ =>
    have below := (height_power_le_iff.1 (le_refl (Node.power ⟨b, .number (k : α)⟩).height)).2
    exact (polynomial_reduceFactor fixed (first b below.1 base) k).anywhere
  | product _ z fs factors => exact (term le_rfl (.product _ z fs factors)).anywhere
  | sum _ ts allowed terms =>
    have lower : ∀ t ∈ ts, (Node.product t).height ≤ (Node.sum ts).height :=
      fun t ht => ((height_sum_le_iff.1 le_rfl).2 t ht).le
    by_cases single : ∃ t, ts = [t]
    · obtain ⟨t, rfl⟩ := single
      exact (term (lower t List.mem_cons_self) (terms t List.mem_cons_self)).anywhere
    · rw [reduceAt]
      · refine .sum _ _ allowed (polynomial_flattened (p := .inside) ?_)
        rw [List.forall_mem_map]
        exact fun t ht => term (lower t ht) (terms t ht)
      · exact fun t same => single ⟨t, same⟩

/-- Reducing leaves a polynomial a polynomial. -/
theorem polynomial_reduceAt {height : Nat} (h : n.Polynomial P S p) :
    (reduceAt height n).Polynomial P S p := by
  induction height generalizing p n with
  | zero => exact h
  | succ height ih => exact polynomial_reduce_step (fun m _ => ih) (fun m => ih) h

theorem Polynomial.reduce (h : n.Polynomial P S p) : n.reduce.Polynomial P S p :=
  polynomial_reduceAt h

/-- Reducing merges every power under an exponent with the power above it. -/
theorem flat_reduceAt {height : Nat} (low : n.height ≤ height) (h : n.Polynomial P S p) :
    (reduceAt height n).Polynomial P' S p := by
  induction height generalizing p n with
  | zero =>
    cases h with
    | number _ z => exact .number _ z
    | var _ v negative => exact .var _ v negative
    | power _ b k _ _ => exact absurd (height_power_le_iff.1 low).1 (lt_irrefl 0)
    | product _ z fs _ => exact absurd (height_product_le_iff.1 low).1 (lt_irrefl 0)
    | sum _ ts _ _ => exact absurd (height_sum_le_iff.1 low).1 (lt_irrefl 0)
  | succ height ih =>
    exact polynomial_reduce_step (fun m below => ih (by omega)) (fun m => polynomial_reduceAt) h

theorem Polynomial.reduce_flat (h : n.Polynomial P S p) : n.reduce.Polynomial P' S p :=
  flat_reduceAt le_rfl h

end Node

/-! ### Simplifying -/

/-- Rules that add numbers and leave a number as it is. -/
structure ExponentRules.Plain (rules : ExponentRules α) : Prop where
  add : ∀ x y, rules.add (.number x) (.number y) = .ok (.number (x + y))
  tidy : ∀ x, rules.tidy (.number x) = .ok (.number x)

theorem ExponentRules.Plain.level (level : Nat) :
    (Node.exponentRules level : ExponentRules α).Plain := by
  cases level with
  | zero => exact ⟨fun x y => congrArg Except.ok (FieldScalar.ofValue_eq _), fun x => rfl⟩
  | succ level => exact ⟨fun x y => congrArg Except.ok (FieldScalar.ofValue_eq _), fun x => rfl⟩

namespace Node

section Depth

variable {rules : ExponentRules α} (plain : rules.Plain) {simplify : Node α → Checked (Node α)}

include plain

theorem polynomial_collectOne {f : Factor (Node α)} (hf : f.Polynomial P S)
    {gs : List (Factor (Node α))} (hg : ∀ g ∈ gs, g.Polynomial P S) :
    Yields (∀ g ∈ ·, g.Polynomial P S) (collectOne rules f gs) := by
  induction gs with
  | nil => exact .ok (List.forall_mem_singleton.2 hf)
  | cons g gs ih =>
    obtain ⟨first, rest⟩ := List.forall_mem_cons.1 hg
    obtain ⟨base, allowed, j, exponent⟩ := Factor.polynomial_iff.1 first
    obtain ⟨-, -, k, exponent'⟩ := Factor.polynomial_iff.1 hf
    rw [collectOne]
    split
    · rw [exponent, exponent', plain.add, ← Nat.cast_add]
      refine .ok (List.forall_mem_cons.2 ⟨?_, rest⟩)
      exact Factor.polynomial_iff.2 ⟨base, allowed, j + k, rfl⟩
    · exact (ih rest).bind fun grouped kept => .ok (List.forall_mem_cons.2 ⟨first, kept⟩)

theorem polynomial_collect {fs : List (Factor (Node α))} (h : ∀ f ∈ fs, f.Polynomial P S) :
    Yields (∀ f ∈ ·, f.Polynomial P S) (collect rules fs) :=
  .foldlM (fun f hf _ kept => polynomial_collectOne plain (h f hf) kept) (List.forall_mem_nil _)

theorem polynomial_tidyExponents {fs : List (Factor (Node α))} (h : ∀ f ∈ fs, f.Polynomial P S) :
    Yields (∀ f ∈ ·, f.Polynomial P S) (tidyExponents rules fs) := by
  refine .mapM fun f hf => ?_
  have same := h f hf
  obtain ⟨b, e⟩ := f
  obtain ⟨-, -, k, rfl⟩ := Factor.polynomial_iff.1 same
  dsimp only
  rw [plain.tidy]
  exact .ok same

variable [WholeScalar α]

/-- A simplified factor has its base reduced, and no greater exponent unless it is one. -/
theorem polynomial_simplifyFactor {b : Node α} (inner : Yields (Node.Polynomial P S p) (simplify b))
    (k : ℕ) :
    Yields (fun f => f.base.Polynomial P S p ∧ ∃ j ≤ max k 1, f.exponent = .number (j : α))
      (simplifyFactor rules simplify ⟨b, .number (k : α)⟩) := by
  refine inner.bind fun c hc => ?_
  have base := hc.reduce
  refine Yields.bind (Q := (· = .number (k : α))) ?_ fun e same => ?_
  · rw [plain.tidy]
    exact .ok rfl
  subst same
  have kept : ∃ j ≤ max k 1, Node.number (k : α) = .number (j : α) := ⟨k, le_max_left _ _, rfl⟩
  dsimp only
  split
  · exact .ok ⟨.one, 0, Nat.zero_le _, by rw [Nat.cast_zero]; rfl⟩
  · split
    · rename_i x y number exponent
      rw [number] at base
      obtain ⟨z, rfl⟩ := polynomial_number.1 base
      cases exponent
      split
      · rw [ExactScalar.power_natCast, FieldScalar.ofValue_eq]
        exact .ok ⟨.number _ _, 1, le_max_right _ _, by rw [Nat.cast_one]⟩
      · rw [number]
        exact .ok ⟨base, kept⟩
    · exact .ok ⟨base, kept⟩

omit [WholeScalar α] plain in
/-- Nothing cancels against nothing. -/
theorem cancel_nil (fs : List (Factor (Node α))) : cancel fs [] = (fs, []) := by
  induction fs with
  | nil => rfl
  | cons f fs ih =>
    rw [cancel, cancelOne]
    dsimp only
    rw [ih]
    rfl

section Inner

variable (inner : ∀ {p : Place} {n : Node α}, n.Polynomial True S p →
  Yields (Node.Polynomial True S p) (simplify n))

include inner

theorem polynomial_simplifyTerm {t : Term α (Node α)} (ht : t.Polynomial True S) :
    Yields (Term.Polynomial True S) (simplifyTerm rules simplify t) := by
  obtain ⟨⟨⟨z, numerator⟩, denominator⟩, -⟩ := Term.polynomial_iff.1 ht
  have factors : Yields (∀ f ∈ ·, f.Polynomial True S)
      (t.realFactors.mapM (simplifyFactor rules simplify)) := by
    refine .mapM fun f hf => ?_
    obtain ⟨b, e⟩ := f
    obtain ⟨base, -, k, rfl⟩ := Factor.polynomial_iff.1 (ht.realFactors _ hf)
    refine (polynomial_simplifyFactor plain (inner base) k).mono fun g hg => ?_
    obtain ⟨base', j, -, exponent⟩ := hg
    exact Factor.polynomial_iff.2 ⟨base', fun _ _ => trivial, j, exponent⟩
  unfold simplifyTerm
  rw [ht.realDivisors, List.mapM_nil]
  refine factors.bind fun fs hf => (polynomial_collect plain hf).bind fun above ha => ?_
  have none : collect rules ([] : List (Factor (Node α))) = .ok [] := rfl
  rw [pure_bind, none]
  refine Yields.bind (Q := (· = [])) (.ok rfl) fun below empty => ?_
  subst empty
  rw [cancel_nil]
  dsimp only
  refine (polynomial_tidyExponents plain ha).bind fun top htop => ?_
  refine Yields.bind (Q := (· = [])) (.ok rfl) fun bottom empty => ?_
  subst empty
  rw [numerator, denominator]
  have term := Term.polynomial_normal z htop
  generalize Term.normal (z : α) 1 top [] = u at term ⊢
  obtain ⟨⟨⟨w, numerator'⟩, denominator'⟩, -⟩ := Term.polynomial_iff.1 term
  split
  · exact .ok Term.polynomial_zero
  · rw [numerator', denominator', WholeScalar.reduceFraction_one, term.realDivisors]
    exact .ok (Term.polynomial_normal w term.realFactors)

end Inner

omit plain

section Sum

variable {step : Term α (Node α) → Checked (Term α (Node α))}
  (stepped : ∀ {t}, t.Polynomial P S → Yields (Term.Polynomial P S) (step t))

include stepped

theorem polynomial_mergeOne {t : Term α (Node α)} (ht : t.Polynomial P S)
    {us : List (Term α (Node α))} (hu : ∀ u ∈ us, u.Polynomial P S) :
    Yields (∀ u ∈ ·, u.Polynomial P S) (mergeOne step t us) := by
  induction us with
  | nil => exact .ok (List.forall_mem_singleton.2 ht)
  | cons u us ih =>
    obtain ⟨first, rest⟩ := List.forall_mem_cons.1 hu
    rw [mergeOne]
    split
    · refine (first.combine ht).bind fun k hk => (stepped hk).bind fun v hv => ?_
      exact .ok (List.forall_mem_cons.2 ⟨hv, rest⟩)
    · exact (ih rest).bind fun merged kept => .ok (List.forall_mem_cons.2 ⟨first, kept⟩)

theorem polynomial_simplifySum {ts : List (Term α (Node α))} (h : ∀ t ∈ ts, t.Polynomial P S) :
    Yields (∀ t ∈ ·, t.Polynomial P S) (simplifySum step ts) := by
  have merged : Yields (∀ t ∈ ·, t.Polynomial P S)
      (ts.foldlM (fun merged t => do mergeOne step (← step t) merged) []) := by
    refine .foldlM (fun t ht merged kept => ?_) (List.forall_mem_nil _)
    exact (stepped (h t ht)).bind fun u hu => polynomial_mergeOne stepped hu kept
  exact merged.bind fun us hu => .ok (polynomial_flattenedTerms hu)

end Sum

include plain

theorem polynomial_simplifyAt {depth : Nat} {n : Node α} (h : n.Polynomial True S p) :
    Yields (Node.Polynomial True S p) (simplifyAt rules depth n) := by
  induction depth generalizing p n with
  | zero => exact .ok h
  | succ depth ih =>
    cases h with
    | number _ z => exact .ok (.number _ z)
    | var _ v negative => exact .ok (.var _ v negative)
    | power _ b k base _ =>
      refine (polynomial_simplifyFactor plain (ih base) k).bind fun f hf => .ok ?_
      obtain ⟨base', j, -, exponent⟩ := hf
      exact (Factor.polynomial_iff.2 ⟨base', fun _ _ => trivial, j, exponent⟩ :
        f.Polynomial True S).anywhere
    | product _ z fs factors =>
      have term : Term.Polynomial True S ⟨(z : α), 1, fs, [Factor.empty]⟩ := .product _ z fs factors
      exact (polynomial_simplifyTerm plain ih term).bind fun t ht => .ok ht.anywhere
    | sum _ ts allowed terms =>
      refine (polynomial_simplifySum (polynomial_simplifyTerm plain ih) terms).bind fun us hu => ?_
      exact .ok (.sum _ us allowed hu)

end Depth

variable [WholeScalar α] {n : Node α}

/-- Simplifying leaves a polynomial a polynomial. -/
theorem Polynomial.simplify (h : n.Polynomial True S p) :
    Yields (Node.Polynomial True S p) n.simplify :=
  polynomial_simplifyAt (.level _) h

theorem polynomial_simplifyTerms {ts : List (Term α (Node α))} (h : ∀ t ∈ ts, t.Polynomial True S) :
    Yields (∀ t ∈ ·, t.Polynomial True S) (simplifyTerms ts) :=
  polynomial_simplifySum (polynomial_simplifyTerm (.level _)
    (polynomial_simplifyAt (.level _))) h

end Node

end SymbolicAlgebra
