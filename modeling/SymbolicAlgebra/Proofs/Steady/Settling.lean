/-
  Expressions that settle
  =======================
  An expression settles when one pass of simplifying leads to a result that another pass
  does not change and that reduces to a steady expression (`Node.Settles`). The result is
  the same at every level and depth that are enough for the expression, so that it may be
  a part of any other one.

  Each kind of node settles when its parts do, under the conditions that its kind asks
  for: **`Node.power_settles`**, **`Node.product_settles`**, **`Node.sum_settles`**,
  `Node.unary_settles` and `Node.binary_settles`.
-/
import SymbolicAlgebra.Proofs.Steady.Product
import SymbolicAlgebra.Proofs.Steady.Sum

namespace SymbolicAlgebra

variable {α : Type} [FieldScalar α]

/-! ### One factor -/

/-- The factor of a base and an exponent: a power of numbers is worked out, unless a whole number
would become a fraction. -/
def Factor.collapsed (base exponent : Node α) : Factor (Node α) :=
  if exponent.isZero then Factor.empty
  else
    match base, exponent with
    | .number b, .number x =>
      if Scalar.isWhole (Scalar.power b x) || !Scalar.isWhole b then
        ⟨.number (Scalar.power b x), .number 1⟩
      else ⟨base, exponent⟩
    | _, _ => ⟨base, exponent⟩

/-- The expression simplified and then reduced. -/
def Node.settle (n : Node α) : Checked (Node α) := return (← n.simplify).reduce

/-- The factor as it is when its parts are simplified and reduced. -/
def Factor.settle (f : Factor (Node α)) : Checked (Factor (Node α)) :=
  return collapsed (← f.base.settle) (← f.exponent.settle)

namespace Factor

variable {b e : Node α}

theorem simplifyFactor_eq {rules : ExponentRules α} {simplify : Node α → Checked (Node α)}
    {f : Factor (Node α)} {m : Node α} (base : simplify f.base = .ok m)
    (exponent : rules.tidy f.exponent = .ok e) :
    Node.simplifyFactor rules simplify f = .ok (collapsed m.reduce e) := by
  unfold Node.simplifyFactor collapsed
  rw [base, exponent]
  simp only [bind, Except.bind, pure, Except.pure]
  generalize m.reduce = b
  split
  · rfl
  · cases b with
    | number x =>
      cases e with
      | number y =>
        dsimp only
        rw [FieldScalar.ofValue_eq]
        split <;> rfl
      | _ => rfl
    | _ => rfl

theorem collapsed_cases (b e : Node α) :
    collapsed b e = ⟨b, e⟩ ∨ ∃ x y, collapsed b e = ⟨.number x, .number y⟩ := by
  unfold collapsed
  split
  · exact .inr ⟨1, 0, rfl⟩
  · split
    · split
      · exact .inr ⟨_, _, rfl⟩
      · exact .inl rfl
    · exact .inl rfl

theorem collapsed_steady (base : b.Steady) (exponent : e.Steady) :
    (collapsed b e).base.Steady ∧ (collapsed b e).exponent.Steady := by
  rcases collapsed_cases b e with same | ⟨x, y, same⟩
  · rw [same]
    exact ⟨base, exponent⟩
  · rw [same]
    exact ⟨.number x, .number y⟩

theorem collapsed_raised (raised : Factor.raised b e = ⟨b, e⟩) :
    Factor.raised (collapsed b e).base (collapsed b e).exponent = collapsed b e := by
  rcases collapsed_cases b e with same | ⟨x, y, same⟩
  · rw [same]
    exact raised
  · rw [same]
    rfl

/-- Nothing collapses twice. -/
theorem collapsed_again [ExactScalar α] (b e : Node α) :
    collapsed (collapsed b e).base (collapsed b e).exponent = collapsed b e := by
  by_cases zero : e.isZero = true
  · have empty : collapsed b e = Factor.empty := if_pos zero
    rw [empty]
    exact if_pos (beq_self_eq_true (0 : α))
  have unfolded : ∀ x y, b = .number x → e = .number y →
      (Scalar.isWhole (Scalar.power x y) || !Scalar.isWhole x) = true →
        collapsed b e = ⟨.number (Scalar.power x y), .number 1⟩ := by
    rintro x y rfl rfl whole
    rw [collapsed, if_neg zero]
    exact if_pos whole
  by_cases worked : ∃ x y, b = .number x ∧ e = .number y ∧
      (Scalar.isWhole (Scalar.power x y) || !Scalar.isWhole x) = true
  · obtain ⟨x, y, base, exponent, whole⟩ := worked
    rw [unfolded x y base exponent whole]
    have real : (Node.number (1 : α)).isZero = false := by simp [Node.isZero]
    rw [collapsed, real, if_neg (by simp), ExactScalar.power_one, Bool.or_not_self, if_pos rfl]
  · have kept : collapsed b e = ⟨b, e⟩ := by
      unfold collapsed
      rw [if_neg zero]
      split
      · rename_i x y
        exact if_neg fun whole => worked ⟨x, y, rfl, rfl, whole⟩
      · rfl
    rw [kept, kept]

end Factor

namespace Node

/-! ### Expressions that settle -/

/-- One pass over the first expression gives the second, which another pass does not change and
which reduces to the third, a steady one. -/
structure Settles (n m r : Node α) : Prop where
  simplified : ∀ level depth, n.level ≤ level → n.depth ≤ depth →
    simplifyAt (exponentRules level) depth n = .ok m
  again : ∀ level depth, simplifyAt (exponentRules level) depth m = .ok m
  reduced : ∀ height, m.height ≤ height → reduceAt height m = r
  steady : r.Steady

namespace Settles

variable {n m r : Node α}

theorem simplify_eq (h : Settles n m r) : n.simplify = .ok m :=
  h.simplified n.level n.depth le_rfl le_rfl

theorem reduce_eq (h : Settles n m r) : m.reduce = r := h.reduced m.height le_rfl

theorem settle_eq (h : Settles n m r) : n.settle = .ok r := by
  rw [Node.settle, h.simplify_eq]
  exact congrArg Except.ok h.reduce_eq

theorem tidy_eq (h : Settles n m r) {level : Nat} (above : 1 + n.level ≤ level) :
    (exponentRules level).tidy n = .ok r := by
  obtain ⟨lower, rfl⟩ : ∃ lower, level = lower + 1 := ⟨level - 1, by omega⟩
  show (do return (← simplifyAt (exponentRules lower) n.depth n).reduce) = _
  rw [h.simplified lower n.depth (by omega) le_rfl]
  exact congrArg Except.ok h.reduce_eq

theorem number_eq {x : α} (h : Settles (.number x) m r) : r = .number x := by
  have simplified : (Except.ok (.number x) : Checked (Node α)) = .ok m :=
    h.simplified 0 0 le_rfl le_rfl
  cases simplified
  exact (h.reduced 0 le_rfl).symm

end Settles

theorem Steady.settles {n : Node α} (h : n.Steady) : Settles n n n where
  simplified level depth _ _ := h.simplified level depth
  again := h.simplified
  reduced height _ := h.reduced height
  steady := h

/-! ### Bounds of the parts -/

section Bounds

omit [FieldScalar α]

variable {f : Factor (Node α)} {fs : List (Factor (Node α))}

theorem level_le_factorsLevel (member : f ∈ fs) : (Node.power f).level ≤ factorsLevel fs := by
  have cons : ∀ (g : Factor (Node α)) gs,
      factorsLevel (g :: gs) = max (Node.power g).level (factorsLevel gs) := by
    rintro ⟨base, exponent⟩ gs
    cases exponent <;> rfl
  induction fs with
  | nil => cases member
  | cons g gs ih =>
    rw [cons]
    rcases List.mem_cons.1 member with rfl | member
    · exact le_max_left _ _
    · exact (ih member).trans (le_max_right _ _)

theorem depth_le_factorsDepth (member : f ∈ fs) : f.base.depth ≤ factorsDepth fs := by
  induction fs with
  | nil => cases member
  | cons g gs ih =>
    rw [factorsDepth]
    rcases List.mem_cons.1 member with rfl | member
    · exact le_max_left _ _
    · exact (ih member).trans (le_max_right _ _)

variable {t : Term α (Node α)} {ts : List (Term α (Node α))}

theorem level_le_termsLevel (member : t ∈ ts) : (Node.product t).level ≤ termsLevel ts := by
  induction ts with
  | nil => cases member
  | cons u us ih =>
    rw [termsLevel]
    rcases List.mem_cons.1 member with rfl | member
    · exact le_max_left _ _
    · exact (ih member).trans (le_max_right _ _)

theorem depth_le_termsDepth (member : t ∈ ts) : (Node.product t).depth ≤ termsDepth ts := by
  induction ts with
  | nil => cases member
  | cons u us ih =>
    rw [termsDepth]
    rcases List.mem_cons.1 member with rfl | member
    · exact le_max_left _ _
    · exact (ih member).trans (le_max_right _ _)

end Bounds

/-- A factor whose parts settle, simplified under enough levels down to enough depth. -/
theorem Settles.simplifyFactor_eq {f : Factor (Node α)} {m b k e : Node α}
    (base : Settles f.base m b) (exponent : Settles f.exponent k e) {level depth : Nat}
    (above : (Node.power f).level ≤ level) (below : f.base.depth ≤ depth) :
    simplifyFactor (exponentRules level) (simplifyAt (exponentRules level) depth) f =
      .ok (Factor.collapsed b e) := by
  have low : f.base.level ≤ level := by
    refine le_trans ?_ above
    obtain ⟨c, d⟩ := f
    cases d <;> simp [Node.level]
  have simplified := base.simplified level depth low below
  have tidied : (exponentRules level).tidy f.exponent = .ok e := by
    cases number : f.exponent.isNumber with
    | true =>
      obtain ⟨c, d⟩ := f
      cases d with
      | number x =>
        rw [exponent.number_eq]
        exact (Steady.number x).tidy level
      | _ => cases number
    | false =>
      apply exponent.tidy_eq
      refine le_trans ?_ above
      obtain ⟨c, d⟩ := f
      cases d with
      | number x => cases number
      | _ => simp [Node.level]
  rw [Factor.simplifyFactor_eq simplified tidied, base.reduce_eq]

/-- A collapsed factor of steady parts that do not merge is simplified to itself as a power, and
reduces to a steady expression. -/
theorem power_again {g : Factor (Node α)} (base : g.base.Steady) (exponent : g.exponent.Steady)
    (once : Factor.collapsed g.base g.exponent = g) (raised : Factor.raised g.base g.exponent = g) :
    (∀ level depth, simplifyAt (exponentRules level) depth (.power g) = .ok (.power g)) ∧
      ∃ r : Node α, r.Steady ∧ ∀ height, reduceAt (height + 1) (.power g) = r := by
  have simplified : ∀ level depth,
      simplifyAt (exponentRules level) depth (.power g) = .ok (.power g) := by
    intro level depth
    cases depth with
    | zero => rfl
    | succ depth =>
      rw [simplifyAt, Factor.simplifyFactor_eq (base.simplified level depth) (exponent.tidy level),
        show g.base.reduce = g.base from base.reduced _, once]
      rfl
  have reduced : ∀ height, reduceFactor (reduceAt height) g = reduceFactor (reduceAt 0) g := by
    intro height
    rw [reduceFactor, reduceFactor, base.reduced, exponent.reduced, base.reduced, exponent.reduced]
  refine ⟨simplified, reduceFactor (reduceAt 0) g, ?_, fun height => by rw [reduceAt, reduced]⟩
  have power : reduceFactor (reduceAt 0) g = .power g → (Node.power g).Steady := by
    intro unreduced
    refine ⟨simplified, ?_⟩
    intro height
    cases height with
    | zero => rfl
    | succ height => rw [reduceAt, reduced, unreduced]
  generalize eq : reduceFactor (reduceAt 0) g = r at power
  rw [reduceFactor, base.reduced, exponent.reduced] at eq
  split at eq
  · rename_i x number
    split at eq
    · rw [← eq]
      exact .number 1
    · split at eq
      · rw [← eq]
        exact base
      · rw [← number, raised] at eq
        exact eq ▸ power eq.symm
  · rw [raised] at eq
    exact eq ▸ power eq.symm

/-- A power settles when its base and its exponent, as they settle, do not merge. -/
theorem power_settles [ExactScalar α] {f : Factor (Node α)} {m b k e : Node α}
    (base : Settles f.base m b) (exponent : Settles f.exponent k e)
    (raised : Factor.raised b e = ⟨b, e⟩) :
    ∃ r, Settles (.power f) (.power (Factor.collapsed b e)) r := by
  obtain ⟨steady, steady'⟩ := Factor.collapsed_steady base.steady exponent.steady
  obtain ⟨again, r, result, reduced⟩ := power_again steady steady' (Factor.collapsed_again b e)
    (Factor.collapsed_raised raised)
  refine ⟨r, ?_, again, ?_, result⟩
  · intro level depth above below
    rw [show (Node.power f).depth = 1 + f.base.depth from rfl] at below
    obtain ⟨lower, rfl⟩ : ∃ lower, depth = lower + 1 := ⟨depth - 1, by omega⟩
    rw [simplifyAt, base.simplifyFactor_eq exponent above (by omega)]
    rfl
  · intro height below
    generalize Factor.collapsed b e = g at below reduced
    rw [show (Node.power g).height = 1 + max g.base.height g.exponent.height from rfl] at below
    obtain ⟨lower, rfl⟩ : ∃ lower, height = lower + 1 := ⟨height - 1, by omega⟩
    exact reduced lower

theorem unary_settles {x m r : Node α} (f : Unary) (h : Settles x m r) :
    Settles (.unary f x) (.unary f m) (.unary f r) := by
  refine ⟨?_, ?_, ?_, h.steady.unary f⟩
  · intro level depth above below
    rw [Node.depth] at below
    obtain ⟨lower, rfl⟩ : ∃ lower, depth = lower + 1 := ⟨depth - 1, by omega⟩
    rw [simplifyAt, h.simplified level lower above (by omega)]
    rfl
  · intro level depth
    cases depth with
    | zero => rfl
    | succ depth =>
      rw [simplifyAt, h.again]
      rfl
  · intro height below
    rw [Node.height] at below
    obtain ⟨lower, rfl⟩ : ∃ lower, height = lower + 1 := ⟨height - 1, by omega⟩
    rw [reduceAt, h.reduced lower (by omega)]

theorem binary_settles {x y m k r s : Node α} (f : Binary) (h : Settles x m r)
    (h' : Settles y k s) : Settles (.binary f x y) (.binary f m k) (.binary f r s) := by
  refine ⟨?_, ?_, ?_, h.steady.binary f h'.steady⟩
  · intro level depth above below
    rw [Node.level] at above
    rw [Node.depth] at below
    obtain ⟨lower, rfl⟩ : ∃ lower, depth = lower + 1 := ⟨depth - 1, by omega⟩
    rw [simplifyAt, h.simplified level lower (by omega) (by omega),
      h'.simplified level lower (by omega) (by omega)]
    rfl
  · intro level depth
    cases depth with
    | zero => rfl
    | succ depth =>
      rw [simplifyAt, h.again, h'.again]
      rfl
  · intro height below
    rw [Node.height] at below
    obtain ⟨lower, rfl⟩ : ∃ lower, height = lower + 1 := ⟨height - 1, by omega⟩
    rw [reduceAt, h.reduced lower (by omega), h'.reduced lower (by omega)]

variable [ExactScalar α]

/-- Zero or a steady term, as a product and as the only term of a sum. -/
theorem done_reduces {u : Term α (Node α)} (done : u = Term.zero ∨ u.Steady) :
    ∃ r : Node α, r.Steady ∧ ∀ height, reduceTerm (reduceAt height) u = r := by
  rcases done with rfl | steady
  · refine ⟨.number 0, .number 0, ?_⟩
    intro height
    have real := Term.zero_bare (α := α)
    have rebuilt : Term.ofNodes (Term.zero : Term α (Node α)).numerator Term.zero.denominator
        (Term.zero.realFactors.map (reduceFactor (reduceAt height)))
        (Term.zero.realDivisors.map (reduceFactor (reduceAt height))) = Term.zero := by
      rw [real.factors, real.divisors, Term.zero_eq]
      exact Term.zero_eq
    rw [reduceTerm, rebuilt, Term.zero_isZero]
    rfl
  · exact ⟨u.plainest, steady.plainest_steady, steady.reduceTerm_eq⟩

variable [SteadyScalar α]

theorem done_pass {u : Term α (Node α)} (done : u = Term.zero ∨ u.Steady) (level depth : Nat) :
    u.pass level depth = .ok u := by
  rcases done with rfl | steady
  · exact Term.pass_zero level depth
  · exact steady.pass_eq level depth

/-- A product settles when one pass over its term does. -/
theorem product_settles {t u : Term α (Node α)} (done : u = Term.zero ∨ u.Steady)
    (passed : ∀ level depth, (Node.product t).level ≤ level → (Node.product t).depth ≤ depth + 1 →
      t.pass level depth = .ok u) : ∃ r, Settles (.product t) (.product u) r := by
  obtain ⟨r, steady, reduced⟩ := done_reduces done
  refine ⟨r, ?_, ?_, ?_, steady⟩
  · intro level depth above below
    obtain ⟨lower, rfl⟩ : ∃ lower, depth = lower + 1 := by
      rw [Node.depth] at below
      exact ⟨depth - 1, by omega⟩
    rw [Term.simplifyAt_product, passed level lower above below]
    rfl
  · intro level depth
    cases depth with
    | zero => rfl
    | succ depth =>
      rw [Term.simplifyAt_product, done_pass done]
      rfl
  · intro height below
    rw [Node.height] at below
    obtain ⟨lower, rfl⟩ : ∃ lower, height = lower + 1 := ⟨height - 1, by omega⟩
    rw [reduceAt, reduced]

/-- A sum that comes to zero or to a steady sum settles. -/
theorem sum_settles {ts us : List (Term α (Node α))} (done : us = [Term.zero] ∨ SteadySum us)
    (passed : ∀ level depth, (Node.sum ts).level ≤ level → (Node.sum ts).depth ≤ depth + 1 →
      simplifySum (Term.pass level depth) ts = .ok us) : ∃ r, Settles (.sum ts) (.sum us) r := by
  have simplified : ∀ level depth, (Node.sum ts).level ≤ level → (Node.sum ts).depth ≤ depth →
      simplifyAt (exponentRules level) depth (.sum ts) = .ok (.sum us) := by
    intro level depth above below
    obtain ⟨lower, rfl⟩ : ∃ lower, depth = lower + 1 := by
      rw [Node.depth] at below
      exact ⟨depth - 1, by omega⟩
    rw [Term.simplifyAt_sum, passed level lower above below]
    rfl
  have again : ∀ level depth, simplifyAt (exponentRules level) depth (.sum us) = .ok (.sum us) := by
    intro level depth
    cases depth with
    | zero => rfl
    | succ depth =>
      have same : simplifySum (Term.pass level depth) us = .ok us := by
        rcases done with rfl | steady
        · rw [simplifySum, List.foldlM_cons, Term.pass_zero]
          exact congrArg Except.ok flattenedTerms_zero
        · exact steady.simplifySum_eq level depth
      rw [Term.simplifyAt_sum, same]
      rfl
  have alone : ∀ u : Term α (Node α), us = [u] → (u = Term.zero ∨ u.Steady) →
      ∃ r, Settles (.sum ts) (.sum us) r := by
    rintro u rfl finished
    obtain ⟨r, steady, reduced⟩ := done_reduces finished
    refine ⟨r, simplified, again, ?_, steady⟩
    intro height below
    rw [Node.height] at below
    obtain ⟨lower, rfl⟩ : ∃ lower, height = lower + 1 := ⟨height - 1, by omega⟩
    rw [reduceAt, reduced]
  rcases done with zero | steady
  · exact alone Term.zero zero (.inl rfl)
  · by_cases single : ∃ u, us = [u]
    · obtain ⟨u, only⟩ := single
      exact alone u only (.inr (steady.steady u (by rw [only]; exact List.mem_cons_self)))
    · have several := steady.sum_steady fun u only => single ⟨u, only⟩
      exact ⟨.sum us, simplified, again, fun height _ => several.reduced height, several⟩

end Node

end SymbolicAlgebra
