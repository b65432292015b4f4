/-
  One pass is enough
  ==================
  Simplifying an expression once is not always enough: an exponent that comes to a
  number only after the bases were cancelled, a product whose exponent comes to one and
  dissolves, two multiples of a sum that add up to it, all leave work for another pass.
  An expression is *tame* when nothing of the kind can happen in it, as its parts come out
  of simplifying:

    * equal bases of a product, on whichever side of the bar, have numbers as exponents
      and stay bases under every number;
    * other bases stay bases under their exponents;
    * the terms of a sum can be merged (`Node.Mergeable`).

  The first condition asks for more than it has to. In `x^y * x^z` equal bases have
  exponents that are no numbers, so it is not tame, although nothing is left to a second
  pass: what the exponents add up to is not looked at. The numbers are exact.

  **`Node.simplify_idempotent`**: a tame expression is simplified to one that is
  simplified to itself, and simplifying and reducing it gives one that both leave alone.
  By induction on the expression, it settles (`Node.Tame.settles`). Some condition on the
  exponents of equal bases is needed: `x^y * x^(2-y) / x` is parsed to an expression that
  the second pass simplifies further (`Node.not_simplify_idempotent_powers`).
-/
import SymbolicAlgebra.Infix.Parser
import SymbolicAlgebra.Proofs.Merging.Loop
import SymbolicAlgebra.Proofs.Steady.Rational
import SymbolicAlgebra.Proofs.Steady.Settling

namespace SymbolicAlgebra

variable {α : Type} [FieldScalar α]

namespace Node

/-- Expressions in which simplifying one part leaves nothing to do in another. The parts are taken
as they are when they are simplified and reduced. Where equal bases of a product meet, their
exponents are numbers, even if others would not matter. -/
inductive Tame : Node α → Prop where
  | number (x : α) : Tame (.number x)
  | constant (c : Constant) (negative : Bool) : Tame (.constant c negative)
  | var (v : Variable) (negative : Bool) : Tame (.var v negative)
  | power (f : Factor (Node α)) (base : Tame f.base) (exponent : Tame f.exponent)
      (raised : ∀ b e, f.base.settle = .ok b → f.exponent.settle = .ok e →
        Factor.raised b e = ⟨b, e⟩) : Tame (.power f)
  | product (t : Term α (Node α)) (bases : ∀ f ∈ t.realFactors ++ t.realDivisors, Tame f.base)
      (exponents : ∀ f ∈ t.realFactors ++ t.realDivisors, Tame f.exponent)
      (ready : ∀ fs gs, t.realFactors.mapM Factor.settle = .ok fs →
        t.realDivisors.mapM Factor.settle = .ok gs → Factor.Ready (fs ++ gs)) : Tame (.product t)
  | sum (ts : List (Term α (Node α))) (terms : ∀ t ∈ ts, Tame (.product t))
      (mergeable : ∀ us,
        List.Forall₂ (fun t u => (Node.product t).simplify = .ok (.product u)) ts us →
          Mergeable us) : Tame (.sum ts)
  | unary (f : Unary) (x : Node α) (argument : Tame x) : Tame (.unary f x)
  | binary (f : Binary) (x y : Node α) (left : Tame x) (right : Tame y) : Tame (.binary f x y)

/-- A number times powers of variables is tame, whatever numbers the exponents are. -/
theorem Tame.of_variables {t : Term α (Node α)}
    (each : ∀ f ∈ t.realFactors ++ t.realDivisors, ∃ v x, f = ⟨.var v false, .number x⟩) :
    (Node.product t).Tame := by
  have plain : ∀ f ∈ t.realFactors ++ t.realDivisors, Yields Factor.Plain f.settle := by
    intro f hf
    obtain ⟨v, x, rfl⟩ := each f hf
    refine .ok ?_
    unfold Factor.collapsed
    split
    · exact ⟨⟨0, rfl⟩, .inl rfl⟩
    · exact ⟨⟨x, rfl⟩, .inr fun _ => rfl⟩
  obtain ⟨above, below⟩ := List.forall_mem_append.1 plain
  refine .product t ?_ ?_ fun fs gs settled settled' => ?_
  · intro f hf
    obtain ⟨v, x, rfl⟩ := each f hf
    exact .var v false
  · intro f hf
    obtain ⟨v, x, rfl⟩ := each f hf
    exact .number x
  · have all : ∀ f ∈ fs ++ gs, f.Plain :=
      List.forall_mem_append.2 ⟨Yields.mapM above fs settled, Yields.mapM below gs settled'⟩
    refine ⟨fun f hf => .inl (all f hf), ?_⟩
    exact List.pairwise_of_forall_mem_list fun f hf g hg _ => ⟨all f hf, all g hg⟩

/-- The factors of a term on one side of the bar, as they settle. -/
theorem factors_settle {fs : List (Factor (Node α))}
    (bases : ∀ f ∈ fs, ∃ m b, Settles f.base m b)
    (exponents : ∀ f ∈ fs, ∃ k e, Settles f.exponent k e) :
    ∃ gs, fs.mapM Factor.settle = .ok gs ∧ (∀ g ∈ gs, g.base.Steady ∧ g.exponent.Steady) ∧
      ∀ level depth, (∀ f ∈ fs, (Node.power f).level ≤ level ∧ f.base.depth ≤ depth) →
        fs.mapM (simplifyFactor (exponentRules level) (simplifyAt (exponentRules level) depth)) =
          .ok gs := by
  induction fs with
  | nil => exact ⟨[], rfl, (fun g hg => by cases hg), fun _ _ _ => rfl⟩
  | cons f fs ih =>
    obtain ⟨⟨m, b, base⟩, laterBases⟩ := List.forall_mem_cons.1 bases
    obtain ⟨⟨k, e, exponent⟩, laterExponents⟩ := List.forall_mem_cons.1 exponents
    obtain ⟨gs, settled, steady, simplified⟩ := ih laterBases laterExponents
    refine ⟨Factor.collapsed b e :: gs, ?_, ?_, ?_⟩
    · rw [List.mapM_cons, Factor.settle, base.settle_eq, exponent.settle_eq, settled]
      rfl
    · exact List.forall_mem_cons.2
        ⟨Factor.collapsed_steady base.steady exponent.steady, steady⟩
    · intro level depth bounds
      obtain ⟨⟨above, below⟩, later⟩ := List.forall_mem_cons.1 bounds
      rw [List.mapM_cons, base.simplifyFactor_eq exponent above below, simplified level depth later]
      rfl

variable [ExactScalar α] [SteadyScalar α]

/-- A term passes in one step if its parts settle and its factors are ready. -/
theorem term_passes {t : Term α (Node α)}
    (bases : ∀ f ∈ t.realFactors ++ t.realDivisors, ∃ m b, Settles f.base m b)
    (exponents : ∀ f ∈ t.realFactors ++ t.realDivisors, ∃ k e, Settles f.exponent k e)
    (ready : ∀ fs gs, t.realFactors.mapM Factor.settle = .ok fs →
      t.realDivisors.mapM Factor.settle = .ok gs → Factor.Ready (fs ++ gs)) :
    ∃ u, (u = Term.zero ∨ u.Steady) ∧ ∀ level depth, (Node.product t).level ≤ level →
      (Node.product t).depth ≤ depth + 1 → t.pass level depth = .ok u := by
  obtain ⟨bases, bases'⟩ := List.forall_mem_append.1 bases
  obtain ⟨exponents, exponents'⟩ := List.forall_mem_append.1 exponents
  obtain ⟨fs, settled, steady, simplified⟩ := factors_settle bases exponents
  obtain ⟨gs, settled', steady', simplified'⟩ := factors_settle bases' exponents'
  obtain ⟨u, done, passed⟩ := Term.pass_spec (t := t) (ready fs gs settled settled')
    (List.forall_mem_append.2 ⟨steady, steady'⟩)
  refine ⟨u, done, ?_⟩
  intro level depth above below
  rw [Node.level] at above
  rw [Node.depth] at below
  apply passed level depth
  · apply simplified
    intro f hf
    have levels := level_le_factorsLevel (Term.mem_factors hf)
    have depths := depth_le_factorsDepth (Term.mem_factors hf)
    exact ⟨by omega, by omega⟩
  · apply simplified'
    intro f hf
    have levels := level_le_factorsLevel (Term.mem_divisors hf)
    have depths := depth_le_factorsDepth (Term.mem_divisors hf)
    exact ⟨by omega, by omega⟩

/-- A sum settles if its terms pass in one step and can be merged afterwards. -/
theorem terms_settle {ts : List (Term α (Node α))}
    (terms : ∀ t ∈ ts, ∃ u, (u = Term.zero ∨ u.Steady) ∧ ∀ level depth,
      (Node.product t).level ≤ level → (Node.product t).depth ≤ depth + 1 →
        t.pass level depth = .ok u)
    (mergeable : ∀ us,
      List.Forall₂ (fun t u => (Node.product t).simplify = .ok (.product u)) ts us → Mergeable us) :
    ∃ m r, Settles (.sum ts) m r := by
  have each : ∀ t ∈ ts, ∃ u, t.pass (Node.product t).level (Node.product t).depth = .ok u ∧
      (u = Term.zero ∨ u.Steady) ∧ (Node.product t).simplify = .ok (.product u) ∧
        ∀ level depth, (Node.sum ts).level ≤ level → (Node.sum ts).depth ≤ depth + 1 →
          t.pass level depth = .ok u := by
    intro t ht
    obtain ⟨u, done, passed⟩ := terms t ht
    obtain ⟨r, settles⟩ := product_settles done passed
    refine ⟨u, passed _ _ le_rfl (Nat.le_succ _), done, settles.simplify_eq, ?_⟩
    intro level depth above below
    have levels := level_le_termsLevel ht
    have depths := depth_le_termsDepth ht
    rw [Node.level] at above
    rw [Node.depth] at below
    exact passed level depth (by omega) (by omega)
  obtain ⟨us, -, related⟩ := mapM_exists each
  have ready := mergeable us (related.imp fun t u parts => parts.2.1)
  have done : ∀ u ∈ us, u = Term.zero ∨ u.Steady :=
    ((List.forall₂_and_left us ts).1 related.flip).1
  obtain ⟨ks, merged, origin, simplified⟩ := ready.simplifySum_eq (.of_done done)
  have finished : ∀ k ∈ ks, k = Term.zero ∨ k.Steady :=
    fun k hk => (origin k hk).elim (done k) id
  have passed : ∀ level depth, (Node.sum ts).level ≤ level → (Node.sum ts).depth ≤ depth + 1 →
      simplifySum (Term.pass level depth) ts = .ok (flattenedTerms ks) := by
    intro level depth above below
    apply simplified level depth ts
    exact related.imp fun t u parts => parts.2.2 level depth above below
  obtain ⟨r, settles⟩ := sum_settles (merged.flattened_steady finished) passed
  exact ⟨_, r, settles⟩

/-- A tame expression settles; if it is a product, as one. -/
theorem Tame.settles {n : Node α} (tame : n.Tame) :
    (∃ m r, Settles n m r) ∧ ∀ t, n = .product t →
      ∃ u, (u = Term.zero ∨ u.Steady) ∧ ∀ level depth, n.level ≤ level → n.depth ≤ depth + 1 →
        t.pass level depth = .ok u := by
  induction tame with
  | number x => exact ⟨⟨_, _, (Steady.number x).settles⟩, fun t => nofun⟩
  | constant c negative => exact ⟨⟨_, _, (Steady.constant c negative).settles⟩, fun t => nofun⟩
  | var v negative => exact ⟨⟨_, _, (Steady.var v negative).settles⟩, fun t => nofun⟩
  | power f _ _ raised base_ih exponent_ih =>
    obtain ⟨⟨m, b, base⟩, -⟩ := base_ih
    obtain ⟨⟨k, e, exponent⟩, -⟩ := exponent_ih
    obtain ⟨r, settles⟩ :=
      power_settles base exponent (raised b e base.settle_eq exponent.settle_eq)
    exact ⟨⟨_, r, settles⟩, fun t => nofun⟩
  | product t _ _ ready bases_ih exponents_ih =>
    obtain ⟨u, done, passed⟩ :=
      term_passes (fun f hf => (bases_ih f hf).1) (fun f hf => (exponents_ih f hf).1) ready
    obtain ⟨r, settles⟩ := product_settles done passed
    refine ⟨⟨_, r, settles⟩, ?_⟩
    rintro _ ⟨⟩
    exact ⟨u, done, passed⟩
  | sum ts _ mergeable terms_ih =>
    exact ⟨terms_settle (fun t ht => (terms_ih t ht).2 t rfl) mergeable, fun t => nofun⟩
  | unary f x _ ih =>
    obtain ⟨⟨m, r, settles⟩, -⟩ := ih
    exact ⟨⟨_, _, unary_settles f settles⟩, fun t => nofun⟩
  | binary f x y _ _ left_ih right_ih =>
    obtain ⟨⟨m, r, left⟩, -⟩ := left_ih
    obtain ⟨⟨k, s, right⟩, -⟩ := right_ih
    exact ⟨⟨_, _, binary_settles f left right⟩, fun t => nofun⟩

/-- Simplifying a tame expression is idempotent, and so is simplifying and reducing it. -/
theorem simplify_idempotent {n : Node α} (tame : n.Tame) :
    (∃ m, n.simplify = .ok m ∧ m.simplify = .ok m) ∧ ∃ r, n.settle = .ok r ∧ r.settle = .ok r := by
  obtain ⟨⟨m, r, settles⟩, -⟩ := tame.settles
  exact ⟨⟨m, settles.simplify_eq, settles.again _ _⟩, r, settles.settle_eq,
    settles.steady.settles.settle_eq⟩

/-- The base that both sides share is plain, and the call with a symbol as its exponent is alone:
`3 * x^2 * sin(x)^y / x`. -/
theorem simplify_idempotent_quotient :
    let x : Node ℚ := .var ⟨'x', 0⟩ false
    let y : Node ℚ := .var ⟨'y', 0⟩ false
    let n : Node ℚ :=
      .product ⟨3, 1, [⟨x, .number 2⟩, ⟨.unary .sin x, y⟩], [⟨x, .number 1⟩]⟩
    n.Tame ∧ (∃ m, n.simplify = .ok m ∧ m.simplify = .ok m) ∧
      ∃ r, n.settle = .ok r ∧ r.settle = .ok r := by
  intro x y n
  have members : ∀ {P : Factor (Node ℚ) → Prop}, P ⟨x, .number 2⟩ → P ⟨.unary .sin x, y⟩ →
      P ⟨x, .number 1⟩ →
        ∀ f ∈ [⟨x, .number 2⟩, ⟨.unary .sin x, y⟩] ++ [⟨x, .number 1⟩], P f := by
    intro P first second third
    exact List.forall_mem_append.2 ⟨List.forall_mem_cons.2 ⟨first, List.forall_mem_singleton.2 second⟩,
      List.forall_mem_singleton.2 third⟩
  have above : ([⟨x, .number 2⟩, ⟨.unary .sin x, y⟩] : List (Factor (Node ℚ))).mapM Factor.settle =
      .ok [⟨x, .number 2⟩, ⟨.unary .sin x, y⟩] := rfl
  have below : ([⟨x, .number 1⟩] : List (Factor (Node ℚ))).mapM Factor.settle =
      .ok [⟨x, .number 1⟩] := rfl
  have plain : ∀ z : ℚ, Factor.Plain ⟨x, .number z⟩ :=
    fun z => ⟨⟨z, rfl⟩, .inr fun _ => rfl⟩
  have tame : n.Tame := by
    refine .product _ ?_ ?_ ?_
    · exact members (.var _ _) (.unary _ _ (.var _ _)) (.var _ _)
    · exact members (.number _) (.var _ _) (.number _)
    · intro fs gs settled settled'
      cases above.symm.trans settled
      cases below.symm.trans settled'
      constructor
      · exact members (.inl (plain 2)) (.inr ⟨rfl, fun z => nofun⟩) (.inl (plain 1))
      · refine .cons ?_ (.cons ?_ (.cons nofun .nil))
        · intro g hg
          rcases List.mem_cons.1 hg with rfl | hg
          · exact fun same => by cases same
          · obtain rfl := List.mem_singleton.1 hg
            exact fun _ => ⟨plain 2, plain 1⟩
        · intro g hg
          obtain rfl := List.mem_singleton.1 hg
          exact fun same => by cases same
  exact ⟨tame, simplify_idempotent tame⟩

/-- The exponents `y` and `2 - y` come to a number after the bases were cancelled: `x^2` is left over
`x`, and cancelled by the next pass only. -/
theorem not_simplify_idempotent_powers :
    let settings : ParserSettings := {}
    let x : Node ℚ := .var ⟨'x', 0⟩ false
    let y : Node ℚ := .var ⟨'y', 0⟩ false
    let rest : Node ℚ := .sum [⟨-1, 1, [⟨y, .number 1⟩], [Factor.empty]⟩,
      ⟨2, 1, [Factor.empty], [Factor.empty]⟩]
    let n : Node ℚ := .product ⟨1, 1, [⟨x, y⟩, ⟨x, rest⟩], [⟨x, .number 1⟩]⟩
    let m : Node ℚ := .product ⟨1, 1, [⟨x, .number 2⟩], [⟨x, .number 1⟩]⟩
    let k : Node ℚ := .product ⟨1, 1, [⟨x, .number 1⟩], [Factor.empty]⟩
    settings.parse "x^y*x^(2-y)/x" = .ok n ∧
      (n.simplify = .ok m ∧ m.simplify = .ok k ∧ k.same m = false) ∧
      n.settle = .ok m ∧ m.settle = .ok x ∧ x.same m = false := by
  intro settings x y rest n m k
  have parsed : settings.parse "x^y*x^(2-y)/x" = .ok n := by
    have lexed : settings.symbols "x^y*x^(2-y)/x" =
        .ok (["x", "^", "y", "*", "x", "^", "(", "2", "-", "y", ")", "/", "x"].map Symbol.mk) := by
      decide +kernel
    have converted : Postfix.ofInfix settings.brackets settings.maxDepth
        (["x", "^", "y", "*", "x", "^", "(", "2", "-", "y", ")", "/", "x"].map Symbol.mk) =
          .ok (["x", "y", "^", "x", "2", "y", "-", "^", "*", "x", "/"].map Symbol.mk) := by
      decide +kernel
    refine bind_eq_ok.2 ⟨_, lexed, bind_eq_ok.2 ⟨_, converted, ?_⟩⟩
    with_unfolding_all rfl
  have first : n.simplify = .ok m := by
    dsimp only [n, m, rest, x, y]
    with_unfolding_all rfl
  have second : m.simplify = .ok k := by
    dsimp only [m, k, x]
    with_unfolding_all rfl
  refine ⟨parsed, ⟨first, second, rfl⟩, ?_, ?_, rfl⟩
  · rw [settle, first]
    with_unfolding_all rfl
  · rw [settle, second]
    with_unfolding_all rfl

end Node

end SymbolicAlgebra
